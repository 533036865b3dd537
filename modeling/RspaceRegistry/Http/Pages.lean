import RspaceRegistry.Http.Query
import RspaceRegistry.Http.Referrers
import RspaceRegistry.Ordered.Pages
import RspaceRegistry.Stores.Listings

namespace RspaceRegistry.Http

open Calls Cuts Disk Ordered

-- A client that pages through a listing by the links of the responses.

-- What stands between the brackets, behind the question mark.
def linkQuery (link : String) : Query :=
  let target := (link.toList.drop 1).takeWhile (· ≠ '>')
  let behind := ((cutOnce '?' target).map Prod.snd).getD []
  urlFormPairs (String.ofList (behind.takeWhile (· ≠ '#')))

def Query.limit (query : Query) : Option Nat := (query.get "n").bind parseUsize

def catalogPage (query : Query) : HandlerM Response := catalog query.limit (query.get "last")

def tagsPage (repo : String) (query : Query) : HandlerM Response :=
  tagsList repo query.limit (query.get "last")

def Body.listed : Body → List String
  | .repositories names => names
  | .tags _ names => names
  | _ => []

-- There is nothing to collect where a page is refused, or where the fuel runs out.
def followLinks {σ : Type} (storage : Handler StorageOp StorageOp.Ans σ)
    (handler : Query → HandlerM Response) : Nat → Query → σ → Option (List String)
  | 0, _, _ => none
  | fuel + 1, query, s =>
      match (handler query).run storage s with
      | (.error _, _) => none
      | (.ok response, s) =>
          match response.header "link" with
          | none => some response.body.listed
          | some link =>
              (followLinks storage handler fuel (linkQuery link) s).map (response.body.listed ++ ·)

-- The pages of a size are the listing that is answered without one, in its order.
def PagesThrough {σ : Type} (storage : Handler StorageOp StorageOp.Ans σ)
    (handler : Query → HandlerM Response) (s : σ) (n : Nat) : Prop :=
  ∀ response s', (handler []).run storage s = (.ok response, s') →
    response.body.listed.Pairwise (· < ·) ∧
      ∃ fuel, followLinks storage handler fuel [("n", toString n)] s = some response.body.listed

section Link

-- Where the link leads that a page ends with.
def nextPage (url : String) (limit : Nat) (final : String) : Option (Option Nat × Option String) :=
  (headerValue (linkText url limit final)).map fun link =>
    ((linkQuery link).limit, (linkQuery link).get "last")

variable {σ : Type} {storage : Handler StorageOp StorageOp.Ans σ} {s : σ}
variable {handler : Query → HandlerM Response} {entries : List String} {url : String}
variable {body : List String → Body}

theorem remaining_eq (last : Option String) :
    remaining entries last = Pages.behind entries last := by
  cases last <;> rfl

theorem followLinks_eq (hbody : ∀ shown, (body shown).listed = shown)
    (hanswer : ∀ query : Query, (handler query).run storage s =
      (.ok ⟨200, (page entries url query.limit (query.get "last")).2,
        body (page entries url query.limit (query.get "last")).1⟩, s)) (fuel : Nat) (query : Query) :
    followLinks storage handler fuel query s =
      Pages.follow (nextPage url) entries fuel query.limit (query.get "last") := by
  induction fuel generalizing query with
  | zero => rfl
  | succ fuel ih =>
      rw [followLinks, hanswer]
      simp only [Response.header, hbody]
      cases hlimit : query.limit with
      | none =>
          rw [page_all, Pages.follow, remaining_eq]
          rfl
      | some limit =>
          rw [Pages.follow, ← remaining_eq]
          by_cases hend : (remaining entries (query.get "last")).length ≤ limit
          · rw [page_end url hend, if_pos hend]
            rfl
          · rw [if_neg hend]
            cases hfinal : ((remaining entries (query.get "last")).take limit).getLast? with
            | none =>
                have hzero : limit = 0 := by
                  have hnil := List.getLast?_eq_none_iff.mp hfinal
                  have hlen := congrArg List.length hnil
                  rw [List.length_take, List.length_nil] at hlen
                  omega
                rw [hzero] at hend ⊢
                rw [page_zero url fun hnil => hend (by rw [hnil]; exact Nat.le_refl 0)]
                rfl
            | some final =>
                rw [page_more url (Nat.lt_of_not_le hend) hfinal]
                simp only [nextPage]
                cases headerValue (linkText url limit final) with
                | none => rfl
                | some link =>
                    simp only [Option.toList_some, List.map_cons, List.map_nil, Option.map_some,
                      List.lookup_cons_self, ih]

end Link

section Plain

theorem utf8_eq (s : String) : utf8 s = s.toList.flatMap String.utf8EncodeChar := by
  rw [utf8, String.toUTF8, ← String.utf8Encode_toList, List.utf8Encode]
  simp

-- Characters of names stand for themselves in a query.
structure Plain (c : Char) : Prop where
  ascii : c.toNat < 128
  header : c = '\t' ∨ 0x20 ≤ c.toNat ∧ c.toNat < 0x7f
  free : c ∉ ['%', '+', '&', '#', '>', '?', '=']

theorem plain_of_name {c : Char} (h : isNameChar c = true ∨ c = '/') : Plain c := by
  have hrange : (97 ≤ c.toNat ∧ c.toNat ≤ 122) ∨ (48 ≤ c.toNat ∧ c.toNat ≤ 57) ∨
      c.toNat = 46 ∨ c.toNat = 95 ∨ c.toNat = 45 ∨ c.toNat = 47 := by
    simp only [isNameChar, isLowerOrDigit, Bool.or_eq_true, Bool.and_eq_true, decide_eq_true_eq,
      beq_iff_eq] at h
    rcases h with ((((⟨hlow, hhigh⟩ | ⟨hlow, hhigh⟩) | rfl) | rfl) | rfl) | rfl
    · exact .inl ⟨hlow, hhigh⟩
    · exact .inr (.inl ⟨hlow, hhigh⟩)
    all_goals decide
  refine ⟨by omega, by omega, fun hmem => ?_⟩
  simp only [List.mem_cons, List.not_mem_nil, or_false] at hmem
  rcases hmem with rfl | rfl | rfl | rfl | rfl | rfl | rfl <;> exact absurd h (by decide)

theorem plain_of_all {s : String} (h : (s.toList.all fun c => isNameChar c || c == '/') = true) :
    ∀ c ∈ s.toList, Plain c := by
  intro c hc
  have hchar := List.all_eq_true.mp h c hc
  rw [Bool.or_eq_true, beq_iff_eq] at hchar
  exact plain_of_name hchar

theorem utf8_plain {s : String} (h : ∀ c ∈ s.toList, Plain c) :
    ∀ b ∈ utf8 s, b ≠ 37 ∧ b ≠ 43 := by
  intro b hb
  rw [utf8_eq, List.mem_flatMap] at hb
  obtain ⟨c, hc, hbyte⟩ := hb
  obtain ⟨hascii, -, hfree⟩ := h c hc
  have hsize : c.utf8Size = 1 := by
    rw [Char.utf8Size_eq_one_iff, UInt32.le_iff_toNat_le]
    exact Nat.le_of_lt_succ hascii
  rw [String.utf8EncodeChar_eq_singleton hsize, List.mem_singleton] at hbyte
  have hval : b.toNat = c.toNat := by
    rw [hbyte, UInt32.toNat_toUInt8]
    exact Nat.mod_eq_of_lt (by rw [Char.toNat] at hascii; omega)
  have hchar : ∀ other : Char, c.toNat = other.toNat → c = other := by
    intro other hsame
    exact Char.toNat_inj.mp hsame
  constructor
  · rintro rfl
    exact hfree (by rw [hchar '%' hval.symm]; decide)
  · rintro rfl
    exact hfree (by rw [hchar '+' hval.symm]; decide)

theorem urlDecode_plain {s : String} (h : ∀ c ∈ s.toList, Plain c) : urlDecode s = s := by
  rw [urlDecode, decodeBytes_plain (utf8_plain h), fromUtf8Lossy_utf8]

theorem cutOnce_append {sep : Char} {front back : List Char} (h : sep ∉ front) :
    cutOnce sep (front ++ sep :: back) = some (front, back) := by
  rw [cutOnce_eq, if_pos (by simp), (firstSegment_append_cons h).1, (firstSegment_append_cons h).2,
    List.tail_cons]

theorem plain_of_digit {c : Char} (h : c.isDigit = true) : Plain c := by
  refine plain_of_name (.inl ?_)
  have hdigit : (decide ('0' ≤ c) && decide (c ≤ '9')) = true := h
  simp only [isNameChar, isLowerOrDigit, hdigit, Bool.or_true, Bool.true_or]

theorem plain_toString (n : Nat) : ∀ c ∈ (toString n).toList, Plain c := by
  intro c hc
  rw [Nat.toString_eq_ofList_toDigits, String.toList_ofList] at hc
  exact plain_of_digit (Nat.isDigit_of_mem_toDigits (by decide) (by decide) hc)

-- The query of a link in which nothing else is a mark.
theorem linkQuery_plain {url final : String} (limit : Nat)
    (hurl : '>' ∉ url.toList ∧ '?' ∉ url.toList) (hfinal : ∀ c ∈ final.toList, Plain c) :
    linkQuery (linkText url limit final) = [("n", toString limit), ("last", final)] := by
  have hlimit := plain_toString limit
  have hkeys : ∀ c ∈ "n=".toList ++ "last=".toList, c ∉ ['#', '>', '&'] := by simp
  have hmarks : ∀ c ∈ ['#', '>', '&'], c ∈ ['%', '+', '&', '#', '>', '?', '='] := by simp
  let size := "n=".toList ++ (toString limit).toList
  let cursor := "last=".toList ++ final.toList
  have hsize : ∀ c ∈ ['#', '>', '&'], c ∉ size := by
    intro c hc hmem
    rcases List.mem_append.mp hmem with hkey | hdigit
    · exact hkeys c (List.mem_append_left _ hkey) hc
    · exact (hlimit c hdigit).free (hmarks c hc)
  have hcursor : ∀ c ∈ ['#', '>', '&'], c ∉ cursor := by
    intro c hc hmem
    rcases List.mem_append.mp hmem with hkey | hentry
    · exact hkeys c (List.mem_append_right _ hkey) hc
    · exact (hfinal c hentry).free (hmarks c hc)
  have hquery : ∀ c ∈ ['#', '>'], c ∉ size ++ '&' :: cursor := by
    intro c hc hmem
    have hne : c ≠ '&' := by
      rintro rfl
      exact absurd hc (by decide)
    have hin : c ∈ ['#', '>', '&'] := List.mem_append_left ['&'] hc
    rcases List.mem_append.mp hmem with hfront | hback
    · exact hsize c hin hfront
    · exact hcursor c hin ((List.mem_cons.mp hback).resolve_left hne)
  have htext : (linkText url limit final).toList.drop 1 =
      (url.toList ++ '?' :: (size ++ '&' :: cursor)) ++ '>' :: "; rel=\"next\"".toList := by
    simp only [linkText, String.toList_append, List.append_assoc, List.cons_append, size, cursor]
    rfl
  have hclose : '>' ∉ url.toList ++ '?' :: (size ++ '&' :: cursor) := by
    intro hmem
    rcases List.mem_append.mp hmem with hfront | hback
    · exact hurl.1 hfront
    · exact hquery '>' (by simp) ((List.mem_cons.mp hback).resolve_left (by decide))
  have htarget : ((linkText url limit final).toList.drop 1).takeWhile (· ≠ '>') =
      url.toList ++ '?' :: (size ++ '&' :: cursor) := by
    rw [htext]
    exact (firstSegment_append_cons hclose).1
  have hwhole : (size ++ '&' :: cursor).takeWhile (· ≠ '#') = size ++ '&' :: cursor := by
    rw [List.takeWhile_eq_self_iff]
    intro c hc
    rw [decide_eq_true_eq]
    rintro rfl
    exact hquery '#' (by simp) hc
  have hpair : ∀ (key : String) (value : List Char), '=' ∉ key.toList →
      (cutOnce '=' (key.toList ++ '=' :: value)).getD (key.toList ++ '=' :: value, []) =
        (key.toList, value) := by
    intro key value hkey
    rw [cutOnce_append hkey, Option.getD_some]
  have hfirst : (cutOnce '=' size).getD (size, []) = ("n".toList, (toString limit).toList) :=
    hpair "n" _ (by decide)
  have hsecond : (cutOnce '=' cursor).getD (cursor, []) = ("last".toList, final.toList) :=
    hpair "last" _ (by decide)
  rw [linkQuery, htarget, cutOnce_append hurl.2]
  simp only [Option.map_some, Option.getD_some, hwhole]
  rw [urlFormPairs, String.toList_ofList, List.splitOn_append_cons_self,
    List.splitOn_eq_singleton (hsize '&' (by simp)), List.splitOn_eq_singleton (hcursor '&' (by simp))]
  have hfilter : ([size] ++ [cursor]).filter (· ≠ []) = [size, cursor] := rfl
  rw [hfilter, List.map_cons, List.map_cons, List.map_nil, hfirst, hsecond]
  simp only [String.ofList_toList]
  rw [urlDecode_plain hlimit, urlDecode_plain hfinal, urlDecode_plain (plain_of_all (by decide)),
    urlDecode_plain (plain_of_all (by decide))]

theorem sendable_plain {s : String} (h : ∀ c ∈ s.toList, c = '\t' ∨ 0x20 ≤ c.toNat ∧ c.toNat < 0x7f) :
    headerValue s = some s := by
  apply if_pos
  rw [List.all_eq_true]
  intro c hc
  simpa using h c hc

theorem nextPage_plain {url final : String} {limit : Nat} (hlimit : limit < 2 ^ 64)
    (hurl : ∀ c ∈ url.toList, Plain c) (hfinal : ∀ c ∈ final.toList, Plain c) :
    nextPage url limit final = some (some limit, some final) := by
  have hclose : '>' ∉ url.toList := fun hmem => (hurl _ hmem).free (by decide)
  have hopen : '?' ∉ url.toList := fun hmem => (hurl _ hmem).free (by decide)
  have hsend : headerValue (linkText url limit final) = some (linkText url limit final) := by
    apply sendable_plain
    intro c hc
    simp only [linkText, String.toList_append, List.mem_append] at hc
    have hfixed : ∀ c ∈ "<".toList ++ "?n=".toList ++ "&last=".toList ++ ">; rel=\"next\"".toList,
        c = '\t' ∨ 0x20 ≤ c.toNat ∧ c.toNat < 0x7f := by simp
    simp only [List.mem_append] at hfixed
    rcases hc with (((((hc | hc) | hc) | hc) | hc) | hc) | hc
    · exact hfixed c (.inl (.inl (.inl hc)))
    · exact (hurl c hc).header
    · exact hfixed c (.inl (.inl (.inr hc)))
    · exact (plain_toString limit c hc).header
    · exact hfixed c (.inl (.inr hc))
    · exact (hfinal c hc).header
    · exact hfixed c (.inr hc)
  have hquery := linkQuery_plain limit ⟨hclose, hopen⟩ hfinal
  have hsize : Query.limit [("n", toString limit), ("last", final)] = parseUsize (toString limit) := rfl
  rw [nextPage, hsend, Option.map_some, hquery, hsize, parseUsize_toString, if_pos hlimit]
  rfl

end Plain

section Through

variable {σ : Type} {storage : Handler StorageOp StorageOp.Ans σ} {s : σ}
variable {handler : Query → HandlerM Response} {entries : List String} {url : String}
variable {body : List String → Body}

theorem pagesThrough_refused {err : OciError} {s' : σ}
    (h : (handler []).run storage s = (.error err, s')) (n : Nat) :
    PagesThrough storage handler s n := by
  intro response after hrun
  rw [h] at hrun
  cases (Prod.mk.inj hrun).1

theorem pagesThrough_iff (hsorted : entries.Pairwise (· < ·))
    (hbody : ∀ shown, (body shown).listed = shown)
    (hanswer : ∀ query : Query, (handler query).run storage s =
      (.ok ⟨200, (page entries url query.limit (query.get "last")).2,
        body (page entries url query.limit (query.get "last")).1⟩, s)) (n : Nat) :
    PagesThrough storage handler s n ↔
      Pages.Separates (nextPage url) entries (parseUsize (toString n)) entries := by
  have hlisted : (body (page entries url none none).1).listed = entries := by
    rw [hbody]
    rfl
  have hfollow : ∀ fuel, followLinks storage handler fuel [("n", toString n)] s =
      Pages.follow (nextPage url) entries fuel (parseUsize (toString n)) none :=
    fun fuel => followLinks_eq hbody hanswer fuel _
  rw [← Pages.follow_iff hsorted]
  constructor
  · intro h
    obtain ⟨-, fuel, hfuel⟩ := h _ _ (hanswer [])
    rw [hfollow] at hfuel
    exact ⟨fuel, hfuel.trans (congrArg some hlisted)⟩
  · rintro ⟨fuel, hfuel⟩ response after hrun
    obtain rfl := Except.ok.inj (Prod.mk.inj ((hanswer []).symm.trans hrun)).1
    have hwhole : (body (page entries url (Query.limit []) (Query.get [] "last")).1).listed =
        entries := hlisted
    rw [hwhole]
    exact ⟨hsorted, fuel, by rw [hfollow, hfuel]⟩

-- Pages of entries that are names come to the whole.
theorem separates_plain (hurl : ∀ c ∈ url.toList, Plain c)
    (hentries : ∀ entry ∈ entries, ∀ c ∈ entry.toList, Plain c) {n : Nat} (hn : 0 < n) :
    Pages.Separates (nextPage url) entries (parseUsize (toString n)) entries := by
  rw [parseUsize_toString]
  split
  · rename_i hlimit
    exact Pages.separates_of_exact hn fun final hfinal =>
      nextPage_plain hlimit hurl (hentries final hfinal)
  · exact .whole nofun

end Through

section Layers

open Stores

variable [Sha2] (layer : Layer) (m : Moment) {s : QuotaState Trees} {repo : String}

theorem catalog_pagesThrough (h : Stores.Grown s.store) {n : Nat} (hn : 0 < n) :
    PagesThrough (layer.storage m) catalogPage s n := by
  obtain ⟨hkept, hnames⟩ := layer.storage_listRepos m h
  rcases hrun : layer.storage m .listRepos s with ⟨err | names, s'⟩
  · have hcall : (call .listRepos).run (layer.storage m) s = (.error (fromStorage err), s') := by
      rw [run_call, hrun]
      rfl
    exact pagesThrough_refused (Fallible.run_bind_of_error hcall _) n
  · rw [hrun] at hkept hnames
    obtain rfl : s' = s := hkept
    have hcall : (call .listRepos).run (layer.storage m) s' = (.ok names, s') := by
      rw [run_call, hrun]
      rfl
    rw [pagesThrough_iff names.sorted (fun _ => rfl)
      (fun query => Fallible.run_bind_of_ok hcall _)]
    refine separates_plain (plain_of_all (by decide)) (fun name hname c hc => ?_) hn
    exact plain_of_name (hnames names rfl name hname c hc)

-- Each cursor of the pages of the tags cuts the listing where its page ends.
def TagsSeparate (layer : Layer) (m : Moment) (s : QuotaState Trees) (repo : String) (n : Nat) :
    Prop :=
  ∀ tags, (layer.storage m (.listTags repo) s).1 = .ok tags →
    Pages.Separates (nextPage ("/v2/" ++ repo ++ "/tags/list")) tags.toList (parseUsize (toString n))
      tags.toList

theorem run_requireListed (h : Stores.Grown s.store) (tags : BTreeSet String) :
    (requireListed repo tags).run (layer.storage m) s = (.ok (), s) ∨
      tags.toList = [] ∧ ∃ err s', (requireListed repo tags).run (layer.storage m) s =
        (.error err, s') := by
  by_cases hempty : tags.toList = []
  · have hkept := (layer.storage_listRepos m h).1
    rw [requireListed, if_pos hempty]
    rcases hrun : layer.storage m .listRepos s with ⟨err | repos, s'⟩
    · have hcall : (call .listRepos).run (layer.storage m) s = (.error (fromStorage err), s') := by
        rw [run_call, hrun]
        rfl
      exact .inr ⟨hempty, _, _, Fallible.run_bind_of_error hcall _⟩
    · rw [hrun] at hkept
      obtain rfl : s' = s := hkept
      have hcall : (call .listRepos).run (layer.storage m) s' = (.ok repos, s') := by
        rw [run_call, hrun]
        rfl
      rw [Fallible.run_bind_of_ok hcall]
      split
      · exact .inl rfl
      · exact .inr ⟨hempty, _, _, rfl⟩
  · rw [requireListed, if_neg hempty]
    exact .inl rfl

theorem tags_pagesThrough_iff (h : Stores.Grown s.store) (hname : validateRepoName repo = .ok ())
    (n : Nat) :
    PagesThrough (layer.storage m) (tagsPage repo) s n ↔ TagsSeparate layer m s repo n := by
  have hkept := layer.storage_listTags m repo (s := s)
  have hhandler : ∀ query, tagsPage repo query = (do
      let tags ← call (.listTags repo)
      requireListed repo tags
      let shown := page tags.toList ("/v2/" ++ repo ++ "/tags/list") query.limit (query.get "last")
      pure ⟨200, shown.2, .tags repo shown.1⟩) := by
    intro query
    rw [tagsPage, tagsList, hname, lift_ok_bind]
  rcases hrun : layer.storage m (.listTags repo) s with ⟨err | tags, s'⟩
  · have hcall : (call (.listTags repo)).run (layer.storage m) s = (.error (fromStorage err), s') := by
      rw [run_call, hrun]
      rfl
    have hrefused : (tagsPage repo []).run (layer.storage m) s = (.error (fromStorage err), s') := by
      rw [hhandler]
      exact Fallible.run_bind_of_error hcall _
    refine iff_of_true (pagesThrough_refused hrefused n) fun tags htags => ?_
    rw [hrun] at htags
    cases htags
  · rw [hrun] at hkept
    obtain rfl : s' = s := hkept
    have hcall : (call (.listTags repo)).run (layer.storage m) s' = (.ok tags, s') := by
      rw [run_call, hrun]
      rfl
    have honly : TagsSeparate layer m s' repo n ↔ Pages.Separates
        (nextPage ("/v2/" ++ repo ++ "/tags/list")) tags.toList (parseUsize (toString n))
          tags.toList := by
      simp [TagsSeparate, hrun]
    rw [honly]
    rcases run_requireListed layer m h tags with hlisted | ⟨hempty, err, after, hmissing⟩
    · have hanswer : ∀ query : Query, (tagsPage repo query).run (layer.storage m) s' =
          (.ok ⟨200, (page tags.toList ("/v2/" ++ repo ++ "/tags/list") query.limit
            (query.get "last")).2, .tags repo (page tags.toList
              ("/v2/" ++ repo ++ "/tags/list") query.limit (query.get "last")).1⟩, s') := by
        intro query
        rw [hhandler, Fallible.run_bind_of_ok hcall, Fallible.run_bind_of_ok hlisted]
        rfl
      exact @pagesThrough_iff _ _ _ _ _ _ (Body.tags repo) tags.sorted (fun _ => rfl) hanswer n
    · have hrefused : (tagsPage repo []).run (layer.storage m) s' = (.error err, after) := by
        rw [hhandler, Fallible.run_bind_of_ok hcall]
        exact Fallible.run_bind_of_error hmissing _
      refine iff_of_true (pagesThrough_refused hrefused n) (.whole fun most _ => ?_)
      rw [hempty]
      exact Nat.zero_le most

end Layers

section

open Files Stores

attribute [local instance] Sample.sha2 Sample.serdeJson

-- A directory in which two tags name one manifest.
def tagged (first second : String) : Tree :=
  (fsStorage (.manifestPut repoA.name (.tag second) Sample.braces)
    (fsStorage (.manifestPut repoA.name (.tag first) Sample.braces) new).2).2

def taggedTrees (first second : String) : Trees :=
  Function.update (fun _ => new) 0 (tagged first second)

theorem built_tag {tree tree' : Tree} {tag : String} (htag : parseReference tag = .tag tag)
    (h : Built (Function.update (fun _ => new) 0 tree))
    (hput : fsStorage (.manifestPut repoA.name (.tag tag) Sample.braces) tree =
      (.ok (hashContent .sha256 Sample.braces), tree')) :
    Built (Function.update (fun _ => new) 0 tree') := by
  have hstore : storageOf (fun _ => none) (.fs 0 0) (.manifestPut repoA.name (parseReference tag)
      Sample.braces) (Function.update (fun _ => new) 0 tree) =
        (.ok (hashContent .sha256 Sample.braces), Function.update (fun _ => new) 0 tree') := by
    rw [storageOf_fs, htag, Function.update_self, hput, Function.update_idem]
  obtain ⟨reply, haccepted⟩ := run_accepted repoA.valid (by decide) none hstore fun want hwant => by
    rw [htag] at hwant
    cases hwant
  exact .put _ _ h haccepted

theorem tagged_built {first second : String}
    (hfirst : parseReference first = .tag first ∧
      (fsStorage (.manifestPut repoA.name (.tag first) Sample.braces) new).1 =
        .ok (hashContent .sha256 Sample.braces))
    (hsecond : parseReference second = .tag second ∧
      (fsStorage (.manifestPut repoA.name (.tag second) Sample.braces)
        (fsStorage (.manifestPut repoA.name (.tag first) Sample.braces) new).2).1 =
          .ok (hashContent .sha256 Sample.braces)) : Built (taggedTrees first second) := by
  have hempty : Built (Function.update (fun _ => new) 0 new) := by
    rw [Function.update_eq_self]
    exact .empty
  exact built_tag hsecond.1 (built_tag hfirst.1 hempty (Prod.ext hfirst.2 rfl))
    (Prod.ext hsecond.2 rfl)

theorem tagged_answer (first second : String) (m : Moment) :
    ((Layer.fs 0).storage m (.listTags repoA.name)
      ⟨fun _ => none, taggedTrees first second⟩).1 =
        (fsStorage (.listTags repoA.name) (tagged first second)).1 := by
  have hroot : ((Layer.fs 0).storage m (.listTags repoA.name)
      ⟨fun _ => none, taggedTrees first second⟩).1 =
        (fsStorage (.listTags repoA.name) (taggedTrees first second 0)).1 := rfl
  rw [hroot, taggedTrees, Function.update_self]

def atRest : Moment := ⟨⟨0, 0⟩, fun _ => none⟩

end

end RspaceRegistry.Http
