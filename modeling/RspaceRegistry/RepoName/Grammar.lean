import RspaceRegistry.RepoName.Components
import Mathlib.Computability.RegularExpressions
import Mathlib.Data.List.Chain
import Mathlib.Data.List.TakeWhile

namespace RspaceRegistry

open RegularExpression

-- The grammar of repository names, and which of its words the check lets through.

section Words

variable {α : Type}

-- One of these letters.
def oneOf (letters : List α) : RegularExpression α :=
  letters.foldr (fun a rest => .char a + rest) 0

def oneOrMore (P : RegularExpression α) : RegularExpression α := P * P.star

theorem mem_oneOf {letters word : List α} :
    word ∈ (oneOf letters).matches' ↔ ∃ a ∈ letters, word = [a] := by
  induction letters with
  | nil =>
      simp only [List.not_mem_nil, false_and, exists_false, iff_false]
      exact Language.notMem_zero word
  | cons a rest ih =>
      rw [oneOf, List.foldr_cons, matches'_add, Language.mem_add]
      simp only [List.mem_cons, exists_eq_or_imp]
      exact or_congr Iff.rfl ih

theorem mem_letters {letters word : List α} :
    word ∈ (oneOrMore (oneOf letters)).matches' ↔ word ≠ [] ∧ ∀ a ∈ word, a ∈ letters := by
  constructor
  · intro h
    obtain ⟨first, hfirst, later, hlater, rfl⟩ := Language.mem_mul.mp h
    obtain ⟨a, ha, rfl⟩ := mem_oneOf.mp hfirst
    obtain ⟨parts, rfl, hparts⟩ := Language.mem_kstar.mp hlater
    refine ⟨by simp, fun b hb => ?_⟩
    rcases List.mem_cons.mp hb with rfl | hb
    · exact ha
    · obtain ⟨part, hpart, hmem⟩ := List.mem_flatten.mp hb
      obtain ⟨c, hc, rfl⟩ := mem_oneOf.mp (hparts part hpart)
      rwa [List.mem_singleton.mp hmem]
  · rintro ⟨hne, hall⟩
    obtain ⟨a, later, rfl⟩ := List.exists_cons_of_ne_nil hne
    apply Language.append_mem_mul (a := [a])
    · exact mem_oneOf.mpr ⟨a, hall a List.mem_cons_self, rfl⟩
    · have hjoin : later = (later.map fun b => [b]).flatten := by
        rw [← List.flatMap_def, List.flatMap_singleton']
      rw [hjoin]
      apply Language.join_mem_kstar
      intro part hpart
      obtain ⟨b, hb, rfl⟩ := List.mem_map.mp hpart
      exact mem_oneOf.mpr ⟨b, hall b (List.mem_cons_of_mem a hb), rfl⟩

end Words

namespace NameGrammar

def lowerOrDigits : List Char := "abcdefghijklmnopqrstuvwxyz0123456789".toList

-- `[a-z0-9]+`
def run : RegularExpression Char := oneOrMore (oneOf lowerOrDigits)

-- `\.|_|__|-+`
def separator : RegularExpression Char :=
  .char '.' + (.char '_' + (.char '_' * .char '_' + oneOrMore (oneOf ['-'])))

-- `[a-z0-9]+((\.|_|__|-+)[a-z0-9]+)*`
def component : RegularExpression Char := run * (separator * run).star

theorem mem_lowerOrDigits (c : Char) : c ∈ lowerOrDigits ↔ isLowerOrDigit c = true := by
  have hsmall : ∀ n < 128, (Char.ofNat n ∈ lowerOrDigits ↔ isLowerOrDigit (Char.ofNat n) = true) := by
    decide +kernel
  by_cases h : c.toNat < 128
  · have hc := hsmall c.toNat h
    rwa [Char.ofNat_toNat] at hc
  · constructor
    · intro hmem
      have hall : lowerOrDigits.all (fun c => c.toNat < 128) = true := by decide +kernel
      exact absurd (by simpa using List.all_eq_true.mp hall c hmem) h
    · intro hlower
      simp only [isLowerOrDigit, Bool.or_eq_true, Bool.and_eq_true, decide_eq_true_eq] at hlower
      have hle : c.toNat ≤ 'z'.toNat ∨ c.toNat ≤ '9'.toNat := hlower.imp And.right And.right
      have hz : 'z'.toNat = 122 := rfl
      have h9 : '9'.toNat = 57 := rfl
      omega

theorem mem_run {word : List Char} :
    word ∈ run.matches' ↔ word ≠ [] ∧ ∀ c ∈ word, isLowerOrDigit c = true := by
  simp only [run, mem_letters, mem_lowerOrDigits]

theorem mem_separator {word : List Char} : word ∈ separator.matches' ↔
    word = ['.'] ∨ word = ['_'] ∨ word = ['_', '_'] ∨ (word ≠ [] ∧ ∀ c ∈ word, c = '-') := by
  have htwo : word ∈ (RegularExpression.char '_' * .char '_').matches' ↔ word = ['_', '_'] := by
    constructor
    · intro h
      obtain ⟨_, rfl, _, rfl, rfl⟩ := Language.mem_mul.mp h
      rfl
    · rintro rfl
      exact Language.append_mem_mul (a := ['_']) rfl rfl
  rw [separator, matches'_add, Language.mem_add, matches'_add, Language.mem_add, matches'_add,
    Language.mem_add, htwo, mem_letters]
  simp only [List.mem_singleton]
  exact Iff.rfl

-- The words of the grammar from left to right.
inductive IsComponent : List Char → Prop
  | run {word : List Char} (h : word ∈ run.matches') : IsComponent word
  | join {word sep rest : List Char} (h : word ∈ run.matches') (hsep : sep ∈ separator.matches')
      (hrest : IsComponent rest) : IsComponent (word ++ (sep ++ rest))

theorem mem_component {word : List Char} : word ∈ component.matches' ↔ IsComponent word := by
  constructor
  · intro h
    obtain ⟨first, hfirst, later, hlater, rfl⟩ := Language.mem_mul.mp h
    obtain ⟨parts, rfl, hparts⟩ := Language.mem_kstar.mp hlater
    clear h hlater
    induction parts generalizing first with
    | nil =>
        rw [List.flatten_nil, List.append_nil]
        exact .run hfirst
    | cons part rest ih =>
        obtain ⟨sep, hsep, next, hnext, rfl⟩ := Language.mem_mul.mp (hparts part List.mem_cons_self)
        rw [List.flatten_cons, List.append_assoc]
        exact .join hfirst hsep
          (ih next hnext fun other hother => hparts other (List.mem_cons_of_mem _ hother))
  · intro h
    induction h with
    | @run word h =>
        rw [← List.append_nil word]
        exact Language.append_mem_mul h (Language.nil_mem_kstar _)
    | @join word sep rest h hsep _ ih =>
        obtain ⟨next, hnext, later, hlater, rfl⟩ := Language.mem_mul.mp ih
        obtain ⟨parts, rfl, hparts⟩ := Language.mem_kstar.mp hlater
        have hjoin : sep ++ (next ++ parts.flatten) = ((sep ++ next) :: parts).flatten := by
          rw [List.flatten_cons, List.append_assoc]
        rw [hjoin]
        apply Language.append_mem_mul h
        apply Language.join_mem_kstar
        intro part hpart
        rcases List.mem_cons.mp hpart with rfl | hpart
        · exact Language.append_mem_mul hsep hnext
        · exact hparts part hpart

-- The letters up to the first that is none of these.
theorem exists_leading (p : Char → Bool) (word : List Char) : ∃ front back, word = front ++ back ∧
    (∀ c ∈ front, p c = true) ∧ ∀ c ∈ back.head?, p c = false := by
  refine ⟨word.takeWhile p, word.dropWhile p, List.takeWhile_append_dropWhile.symm,
    fun c hc => List.mem_takeWhile_imp hc, fun c hc => ?_⟩
  have h := List.head?_dropWhile_not p word
  rw [Option.mem_def.mp hc] at h
  exact h

theorem infix_append_cons {part front back : List Char} {c : Char} (hc : c ∉ part)
    (h : part <:+: front ++ c :: back) : part <:+: front ∨ part <:+: back := by
  have hfront : ∀ word, part <+: word ++ c :: back → part <+: word := by
    intro word hstart
    by_cases hle : part.length ≤ word.length
    · exact List.prefix_of_prefix_length_le hstart (List.prefix_append _ _) hle
    · have hword : word ++ [c] <+: part := by
        apply List.prefix_of_prefix_length_le _ hstart
        · rw [List.length_append, List.length_singleton]
          omega
        · exact ⟨back, by rw [List.append_assoc, List.singleton_append]⟩
      exact absurd (hword.subset (List.mem_append_right word List.mem_cons_self)) hc
  induction front with
  | nil =>
      rcases List.infix_cons_iff.mp h with hstart | hwithin
      · exact .inl (hfront [] hstart).isInfix
      · exact .inr hwithin
  | cons first rest ih =>
      rcases List.infix_cons_iff.mp h with hstart | hwithin
      · exact .inl (hfront (first :: rest) hstart).isInfix
      · exact (ih hwithin).imp_left (List.infix_cons ·)

-- Two letters that may stand next to each other.
def Adjacent (a b : Char) : Prop :=
  isLowerOrDigit a = true ∨ isLowerOrDigit b = true ∨ (a = b ∧ (a = '-' ∨ a = '_'))

instance (a b : Char) : Decidable (Adjacent a b) := inferInstanceAs (Decidable (_ ∨ _))

-- Separators stand alone, but for a run of dashes and for two underscores, and
-- none is at the end.
structure WellSeparated (word : List Char) : Prop where
  chain : word.IsChain Adjacent
  triple : ¬['_', '_', '_'] <:+: word
  final : ∀ c ∈ word.getLast?, isLowerOrDigit c = true

-- The letters that the check asks for.
def Shaped (word : List Char) : Prop :=
  (∃ c ∈ word.head?, isLowerOrDigit c = true) ∧ ∀ c ∈ word, isNameChar c = true

theorem chain_of_run {word : List Char} (h : ∀ c ∈ word, isLowerOrDigit c = true) :
    word.IsChain Adjacent := by
  induction word with
  | nil => exact .nil
  | cons first rest ih =>
      apply List.isChain_cons.mpr
      exact ⟨fun _ _ => .inl (h first List.mem_cons_self),
        ih fun c hc => h c (List.mem_cons_of_mem _ hc)⟩

theorem isNameChar_of_lower {c : Char} (h : isLowerOrDigit c = true) : isNameChar c = true := by
  simp only [isNameChar, h, Bool.true_or]

theorem wellSeparated_of_run {word : List Char} (h : word ∈ run.matches') :
    Shaped word ∧ WellSeparated word := by
  obtain ⟨hne, hall⟩ := mem_run.mp h
  obtain ⟨first, rest, rfl⟩ := List.exists_cons_of_ne_nil hne
  refine ⟨⟨⟨first, rfl, hall first List.mem_cons_self⟩, fun c hc => isNameChar_of_lower (hall c hc)⟩,
    chain_of_run hall, fun hwithin => ?_, fun c hc => hall c (List.mem_of_getLast? hc)⟩
  exact absurd (hall '_' (hwithin.subset List.mem_cons_self)) (by decide)

theorem separator_chars {sep : List Char} (h : sep ∈ separator.matches') :
    sep ≠ [] ∧ sep.IsChain Adjacent ∧ ¬['_', '_', '_'] <:+: sep ∧
      ∀ c ∈ sep, isNameChar c = true ∧ isLowerOrDigit c = false := by
  have hof : ∀ word : List Char, word.all (fun c => isNameChar c && !isLowerOrDigit c) = true →
      ∀ c ∈ word, isNameChar c = true ∧ isLowerOrDigit c = false := by
    intro word hall c hc
    simpa using List.all_eq_true.mp hall c hc
  rcases mem_separator.mp h with rfl | rfl | rfl | ⟨hne, hall⟩
  · refine ⟨List.cons_ne_nil _ _, .singleton _, fun hwithin => ?_, hof _ (by decide)⟩
    exact absurd hwithin.length_le (by simp)
  · refine ⟨List.cons_ne_nil _ _, .singleton _, fun hwithin => ?_, hof _ (by decide)⟩
    exact absurd hwithin.length_le (by simp)
  · refine ⟨List.cons_ne_nil _ _, ?_, fun hwithin => ?_, hof _ (by decide)⟩
    · exact .cons_cons (.inr (.inr ⟨rfl, .inr rfl⟩)) (.singleton _)
    · exact absurd hwithin.length_le (by simp)
  · refine ⟨hne, ?_, fun hwithin => ?_, fun c hc => ?_⟩
    · rw [List.eq_replicate_of_mem hall]
      exact List.isChain_replicate_of_rel _ (.inr (.inr ⟨rfl, .inl rfl⟩))
    · exact absurd (hall '_' (hwithin.subset List.mem_cons_self)) (by decide)
    · rw [hall c hc]
      decide

theorem wellSeparated_of_isComponent {word : List Char} (h : IsComponent word) :
    Shaped word ∧ WellSeparated word := by
  induction h with
  | run h => exact wellSeparated_of_run h
  | @join word sep rest h hsep hrest ih =>
      obtain ⟨⟨⟨first, hfirst, hlower⟩, hchars⟩, hword⟩ := wellSeparated_of_run h
      obtain ⟨⟨⟨next, hnext, hnextLower⟩, hrestChars⟩, hseparated⟩ := ih
      obtain ⟨hne, hchain, htriple, hsepChars⟩ := separator_chars hsep
      have hwordNe : word ≠ [] := (mem_run.mp h).1
      have hrestNe : rest ≠ [] := by
        rintro rfl
        cases hnext
      refine ⟨⟨⟨first, ?_, hlower⟩, fun c hc => ?_⟩, ?_, fun hwithin => ?_, fun c hc => ?_⟩
      · rw [List.head?_append_of_ne_nil _ hwordNe]
        exact hfirst
      · rcases List.mem_append.mp hc with hc | hc
        · exact hchars c hc
        · exact (List.mem_append.mp hc).elim (fun hc => (hsepChars c hc).1) (hrestChars c)
      · refine List.isChain_append.mpr ⟨hword.chain, List.isChain_append.mpr
          ⟨hchain, hseparated.chain, fun _ _ c hc => ?_⟩, fun c hc _ _ => .inl (hword.final c hc)⟩
        rw [Option.mem_def.mp hnext] at hc
        exact .inr (.inl (Option.some.inj hc ▸ hnextLower))
      · -- The letters on both sides of the separator keep the underscores inside it.
        obtain ⟨later, hlater⟩ : ∃ later, rest = next :: later := by
          cases rest with
          | nil => cases hnext
          | cons c later => exact ⟨later, by rw [Option.some.inj hnext]⟩
        have hnot : next ∉ ['_', '_', '_'] := by
          intro hmem
          rw [show next = '_' by simpa using hmem] at hnextLower
          exact absurd hnextLower (by decide)
        rw [hlater, ← List.append_assoc] at hwithin
        rcases infix_append_cons hnot hwithin with hleft | hright
        · obtain ⟨front, last, rfl⟩ : ∃ front last, word = front ++ [last] :=
            ⟨_, _, (List.dropLast_append_getLast hwordNe).symm⟩
          have hlast : last ∉ ['_', '_', '_'] := by
            intro hmem
            have hlastLower := hword.final last (by simp)
            rw [show last = '_' by simpa using hmem] at hlastLower
            exact absurd hlastLower (by decide)
          rw [List.append_assoc, List.singleton_append] at hleft
          rcases infix_append_cons hlast hleft with hfront | hinside
          · exact hword.triple (hfront.trans (List.prefix_append _ _).isInfix)
          · exact htriple hinside
        · apply hseparated.triple
          rw [hlater]
          exact List.infix_cons hright
      · apply hseparated.final
        rwa [List.getLast?_append_of_ne_nil _ (List.append_ne_nil_of_right_ne_nil _ hrestNe),
          List.getLast?_append_of_ne_nil _ hrestNe] at hc

theorem adjacent_separators {a b : Char} (h : Adjacent a b) (ha : isLowerOrDigit a = false)
    (hb : isLowerOrDigit b = false) : a = b ∧ (a = '-' ∨ a = '_') := by
  rcases h with hlower | hlower | hsame
  · rw [ha] at hlower
    cases hlower
  · rw [hb] at hlower
    cases hlower
  · exact hsame

theorem separators_same {first : Char} {later : List Char}
    (hchain : (first :: later).IsChain Adjacent)
    (hnot : ∀ c ∈ first :: later, isLowerOrDigit c = false) : ∀ c ∈ first :: later, c = first := by
  induction later generalizing first with
  | nil => exact fun c hc => List.mem_singleton.mp hc
  | cons second more ih =>
      obtain ⟨hadjacent, htail⟩ := List.isChain_cons_cons.mp hchain
      have hsame := (adjacent_separators hadjacent (hnot first List.mem_cons_self)
        (hnot second (by simp))).1
      intro c hc
      rcases List.mem_cons.mp hc with rfl | hc
      · rfl
      · rw [hsame]
        exact ih htail (fun d hd => hnot d (List.mem_cons_of_mem _ hd)) c hc

theorem mem_separator_of {sep : List Char} (hne : sep ≠ []) (hchain : sep.IsChain Adjacent)
    (htriple : ¬['_', '_', '_'] <:+: sep)
    (hchars : ∀ c ∈ sep, isNameChar c = true ∧ isLowerOrDigit c = false) :
    sep ∈ separator.matches' := by
  obtain ⟨first, later, rfl⟩ := List.exists_cons_of_ne_nil hne
  have hnot : ∀ c ∈ first :: later, isLowerOrDigit c = false := fun c hc => (hchars c hc).2
  have hsame := separators_same hchain hnot
  rw [mem_separator]
  have hkind : first = '.' ∨ first = '_' ∨ first = '-' := by
    obtain ⟨hname, hlower⟩ := hchars first List.mem_cons_self
    simpa [isNameChar, hlower, or_assoc] using hname
  cases later with
  | nil =>
      rcases hkind with rfl | rfl | rfl
      · exact .inl rfl
      · exact .inr (.inl rfl)
      · exact .inr (.inr (.inr ⟨hne, by simp⟩))
  | cons second more =>
      obtain ⟨hadjacent, htail⟩ := List.isChain_cons_cons.mp hchain
      have hsecond : second = first := hsame second (by simp)
      rcases (adjacent_separators hadjacent (hnot first (by simp)) (hnot second (by simp))).2 with
        rfl | rfl
      · exact .inr (.inr (.inr ⟨hne, hsame⟩))
      · subst hsecond
        cases more with
        | nil => exact .inr (.inr (.inl rfl))
        | cons third more =>
            have hthird : third = '_' := hsame third (by simp)
            subst hthird
            exact absurd ⟨[], more, rfl⟩ htriple

theorem WellSeparated.of_append {front back : List Char} (h : WellSeparated (front ++ back))
    (hne : back ≠ []) : WellSeparated back := by
  refine ⟨(List.isChain_append.mp h.chain).2.1,
    fun hwithin => h.triple (hwithin.trans (List.suffix_append _ _).isInfix), fun c hc => ?_⟩
  apply h.final
  rwa [List.getLast?_append_of_ne_nil _ hne]

theorem isComponent_of_wellSeparated (word : List Char) (hshape : Shaped word)
    (h : WellSeparated word) : IsComponent word := by
  obtain ⟨front, back, rfl, hfront, hback⟩ := exists_leading isLowerOrDigit word
  obtain ⟨⟨first, hfirst, hlower⟩, hchars⟩ := hshape
  have hfrontNe : front ≠ [] := by
    rintro rfl
    rw [hback first hfirst] at hlower
    cases hlower
  have hrun : front ∈ run.matches' := mem_run.mpr ⟨hfrontNe, hfront⟩
  by_cases hbackNe : back = []
  · rw [hbackNe, List.append_nil]
    exact .run hrun
  · obtain ⟨sep, rest, rfl, hsep, hrest⟩ := exists_leading (fun c => !isLowerOrDigit c) back
    have hsepLower : ∀ c ∈ sep, isLowerOrDigit c = false := by
      intro c hc
      simpa using hsep c hc
    have hsepNe : sep ≠ [] := by
      rintro rfl
      obtain ⟨next, later, hlater⟩ := List.exists_cons_of_ne_nil hbackNe
      have hnext : next ∈ ([] ++ rest).head? := by
        rw [hlater]
        rfl
      have hlow := hback next hnext
      have hhigh := hrest next hnext
      rw [hlow] at hhigh
      cases hhigh
    have hrestNe : rest ≠ [] := by
      rintro rfl
      have hlast := h.final (sep.getLast hsepNe) (by
        rw [List.append_nil, List.getLast?_append_of_ne_nil _ hsepNe]
        exact List.getLast?_eq_getLast_of_ne_nil hsepNe)
      rw [hsepLower _ (List.getLast_mem hsepNe)] at hlast
      cases hlast
    have hmiddle := h.of_append hbackNe
    have hseparator : sep ∈ separator.matches' := by
      apply mem_separator_of hsepNe (List.isChain_append.mp hmiddle.chain).1
      · exact fun hwithin => hmiddle.triple (hwithin.trans (List.prefix_append _ _).isInfix)
      · intro c hc
        exact ⟨hchars c (List.mem_append_right _ (List.mem_append_left _ hc)), hsepLower c hc⟩
    have hrestShape : Shaped rest := by
      obtain ⟨next, later, rfl⟩ := List.exists_cons_of_ne_nil hrestNe
      refine ⟨⟨next, rfl, by simpa using hrest next rfl⟩, fun c hc => ?_⟩
      exact hchars c (List.mem_append_right _ (List.mem_append_right _ hc))
    have hshorter : rest.length < (front ++ (sep ++ rest)).length := by
      have hpos := List.length_pos_iff.mpr hfrontNe
      simp only [List.length_append]
      omega
    exact .join hrun hseparator
      (isComponent_of_wellSeparated rest hrestShape (hmiddle.of_append hrestNe))
termination_by word.length

theorem isComponent_iff {word : List Char} :
    IsComponent word ↔ Shaped word ∧ WellSeparated word :=
  ⟨wellSeparated_of_isComponent, fun h => isComponent_of_wellSeparated word h.1 h.2⟩

theorem validateComponent_iff {part : String} :
    validateComponent part = .ok () ↔ Shaped part.toList := by
  unfold validateComponent Shaped
  cases part.toList with
  | nil => simp
  | cons first chars =>
      by_cases hfirst : isLowerOrDigit first = true
      · simp [hfirst, isNameChar_of_lower hfirst]
      · simp [hfirst]

theorem validateComponents_iff {parts : List String} :
    validateComponents parts = .ok () ↔ ∀ part ∈ parts, Shaped part.toList := by
  induction parts with
  | nil => simp [validateComponents]
  | cons part rest ih =>
      rw [validateComponents, List.forall_mem_cons, ← ih, ← validateComponent_iff]
      cases validateComponent part with
      | ok value => simp
      | error err => simp

-- What the check lets through.
theorem validateRepoName_iff {name : String} : validateRepoName name = .ok () ↔
    name.utf8ByteSize ≤ 255 ∧ ∀ part ∈ components name, Shaped part.toList := by
  rw [validateRepoName, ← validateComponents_iff]
  by_cases hempty : name = ""
  · subst hempty
    decide
  · by_cases hlen : name.utf8ByteSize ≤ 255
    · have hnot : (name.isEmpty || decide (name.utf8ByteSize > 255)) = false := by
        simp [hempty, hlen]
      simp only [hnot, Bool.false_eq_true, if_false, hlen, true_and]
    · have hnot : (name.isEmpty || decide (name.utf8ByteSize > 255)) = true := by
        simp
        omega
      simp [hnot, hlen]

-- The names of the specification.
def InGrammar (name : String) : Prop :=
  name.utf8ByteSize ≤ 255 ∧ ∃ parts ≠ [],
    name = "/".intercalate parts ∧ ∀ part ∈ parts, part.toList ∈ component.matches'

theorem inGrammar_iff {name : String} : InGrammar name ↔ name.utf8ByteSize ≤ 255 ∧
    ∀ part ∈ components name, Shaped part.toList ∧ WellSeparated part.toList := by
  simp only [InGrammar, mem_component, isComponent_iff]
  apply and_congr_right
  intro _
  constructor
  · rintro ⟨parts, hne, rfl, hall⟩
    rw [components_intercalate hne]
    · exact hall
    · intro part hpart hslash
      exact absurd ((hall part hpart).1.2 '/' hslash) (by decide)
  · intro hall
    refine ⟨components name, ?_, (intercalate_components name).symm, hall⟩
    rw [components, ne_eq, List.map_eq_nil_iff]
    exact List.splitOn_ne_nil _ _

def ValidatedByGrammar (name : String) : Prop :=
  (validateRepoName name = .ok () ↔ InGrammar name) ∧
    (validateRepoName name = .ok () → ∀ part ∈ components name, part ∉ ["", ".", ".."])

-- The check goes by the grammar unless separators meet, or end a component, in a
-- name that has the right letters.
theorem validated_by_grammar_iff (name : String) : ValidatedByGrammar name ↔
    ((name.utf8ByteSize ≤ 255 ∧ ∀ part ∈ components name, Shaped part.toList) →
      ∀ part ∈ components name, WellSeparated part.toList) := by
  have hdots : validateRepoName name = .ok () → ∀ part ∈ components name, part ∉ ["", ".", ".."] := by
    intro hvalid part hpart hmem
    have hshape := (validateRepoName_iff.mp hvalid).2 part hpart
    simp only [List.mem_cons, List.not_mem_nil, or_false] at hmem
    obtain ⟨⟨c, hc, hlower⟩, -⟩ := hshape
    rcases hmem with rfl | rfl | rfl
    · cases hc
    · cases hc
      cases hlower
    · cases hc
      cases hlower
  rw [ValidatedByGrammar, and_iff_left hdots, validateRepoName_iff, inGrammar_iff]
  constructor
  · intro hiff hshaped part hpart
    exact ((hiff.mp hshaped).2 part hpart).2
  · intro hall
    constructor
    · exact fun h => ⟨h.1, fun part hpart => ⟨h.2 part hpart, hall h part hpart⟩⟩
    · exact fun h => ⟨h.1, fun part hpart => (h.2 part hpart).1⟩

theorem dots_accepted : ¬∀ name, ValidatedByGrammar name := by
  intro hall
  have hgrammar := (hall "a..b").1.mp (by decide)
  have hseparated := ((inGrammar_iff.mp hgrammar).2 "a..b" (by decide)).2
  exact absurd hseparated.chain (by decide)

end NameGrammar

end RspaceRegistry
