import RspaceRegistry.Calls.Local
import RspaceRegistry.Digest.Count
import RspaceRegistry.World.Faults
import RspaceRegistry.Manifest

namespace RspaceRegistry.Sample

-- The hash and the JSON parser by tables, for the examples: SHA-256 and the
-- syntax of the few texts that the examples store.

def text (s : String) : Bytes := s.toList.map fun c => c.toNat.toUInt8

def x : Bytes := text "x"

-- An object and an array without members, which both parse as manifests.
def braces : Bytes := text "{}"

def brackets : Bytes := text "[]"

-- The digest of a descriptor, in two halves.
def digestMember (first second : String) : Bytes :=
  text "\"digest\":\"sha256:" ++ text first ++ text second ++ text "\""

-- A config whose descriptor has no `mediaType`.
def untyped : Bytes := text "\x7b\"config\":\x7b" ++
  digestMember "2d711642b726b04401627ca9fbac32f5" "c8530fb1903cc4db02258717921a4881" ++ text "\x7d\x7d"

-- An image whose config is the text "x".
def typed : Bytes := text "\x7b\"config\":\x7b\"mediaType\":\"m\"," ++
  digestMember "2d711642b726b04401627ca9fbac32f5" "c8530fb1903cc4db02258717921a4881" ++
    text ",\"size\":1\x7d\x7d"

def entry (first second : String) : Bytes :=
  text "\x7b\"mediaType\":\"m\"," ++ digestMember first second ++ text "\x7d"

-- An index of that image, and an index of both.
def innerIndex : Bytes := text "\x7b\"manifests\":[" ++
  entry "3b4f912f62d0182393b9335f3a481ae6" "199b3ff72c1ab9ed21686f66198b47f5" ++ text "]\x7d"

def outerIndex : Bytes := text "\x7b\"manifests\":[" ++
  entry "7f365c78878c058d6134e6d328b1df75" "bd237913ed79239979a7c0c059b0b325" ++ text "," ++
  entry "3b4f912f62d0182393b9335f3a481ae6" "199b3ff72c1ab9ed21686f66198b47f5" ++ text "]\x7d"

def hexDigits (len n : Nat) : List Char :=
  (List.range len).map fun i => Nat.digitChar (n / 16 ^ (len - 1 - i) % 16)

theorem isLowerHex_digitChar (n : Nat) : isLowerHex (Nat.digitChar (n % 16)) = true := by
  have h : ∀ d < 16, isLowerHex (Nat.digitChar d) = true := by decide
  exact h _ (Nat.mod_lt n (by decide))

theorem hexDigits_valid (algorithm : Algorithm) (n : Nat) :
    ValidHex algorithm (String.ofList (hexDigits algorithm.hexLen n)) := by
  have hall : (hexDigits algorithm.hexLen n).all isLowerHex = true := by
    rw [List.all_eq_true]
    intro c hc
    obtain ⟨i, _, rfl⟩ := List.mem_map.mp hc
    exact isLowerHex_digitChar _
  constructor
  · rw [← String.utf8Len_toList, String.toList_ofList, utf8Len_lowerHex _ hall]
    simp [hexDigits]
  · rw [String.toList_ofList]
    exact hall

-- Each text with its SHA-256 in hex and its SHA-512 as a number.
def hashes : List (Bytes × String × Nat) :=
  [(x, "2d711642b726b04401627ca9fbac32f5c8530fb1903cc4db02258717921a4881",
      0xa4abd4448c49562d828115d13a1fccea927f52b4d5459297f8b43e42da89238bc13626e43dcb38ddb082488927ec904fb42057443983e88585179d50551afe62),
    (braces, "44136fa355b3678a1146ad16f7e8649e94fb4fc21fe77e8310c060f61caaff8a",
      0x27c74670adb75075fad058d5ceaf7b20c4e7786c83bae8a32f626f9782af34c9a33c2046ef60fd2a7878d378e29fec851806bbd9a67878f3a9f1cda4830763fd),
    (brackets, "4f53cda18c2baa0c0354bb5f9a3ecbe5ed12ab4d8e11ba873c2f11161202b945",
      0xb25b294cb4deb69ea00a4c3cf3113904801b6015e5956bd019a8570b1fe1d6040e944ef3cdee16d0a46503ca6e659a25f21cf9ceddc13f352a3c98138c15d6af),
    (untyped, "64b8edc0177914ca30b7b073f2d7e02eeca16c0a0bc9491504eebb0f6750a83f",
      0x7af2cc1aed99b9c4995941fef8fe4f9f6238c279ca80f13bb40a761636f4453994fd3b4c6ac49debc1ac792a64ba4a78c93a7e4940c01222b17064ff53ad460a),
    (typed, "3b4f912f62d0182393b9335f3a481ae6199b3ff72c1ab9ed21686f66198b47f5",
      0x8132a653dab57b65614a48650612d38585f86f533442e57817b6453f721489389435931391acd78002f1d69c0da8fde1ed03dfd4c5d6dac077526e25405fc364),
    (innerIndex, "7f365c78878c058d6134e6d328b1df75bd237913ed79239979a7c0c059b0b325",
      0x09e21463264ae556659f9c8b435ebc5e4c147a5a8e05ee34c82be89ad61d5823b89b7966752eefb0e02e2666bae69533560ecf93f0b0a8e1bc46ae6131a29a56),
    (outerIndex, "6d0529f467993ba1ac8db54034e04c7fd0ea01b657c437b1b5a4155f8512923e",
      0x2e25b2de136094a2992e1a6aaec4e7f1a9235a579699a006f76f82f19304b33914c072c264bc4ff7bd26580e8b06d6c1eaebb0fd95ab9065ebe5c0f4bbfa68f6)]

def hexOf (algorithm : Algorithm) (content : Bytes) : String :=
  match algorithm, hashes.lookup content with
  | .sha256, some (hex, _) => hex
  | .sha512, some (_, n) => String.ofList (hexDigits 128 n)
  | .sha256, none => String.ofList (hexDigits 64 0)
  | .sha512, none => String.ofList (hexDigits 128 0)

theorem hashes_valid : ∀ entry ∈ hashes, ValidHex .sha256 entry.2.1 := by decide +kernel

theorem hexOf_valid (algorithm : Algorithm) (content : Bytes) :
    ValidHex algorithm (hexOf algorithm content) := by
  unfold hexOf
  split
  · rename_i hex n hfound
    obtain ⟨l₁, l₂, heq, _⟩ := List.lookup_eq_some_iff.mp hfound
    have hmem : (content, hex, n) ∈ hashes := by
      rw [heq]
      simp
    exact hashes_valid _ hmem
  · exact hexDigits_valid .sha512 _
  · exact hexDigits_valid .sha256 _
  · exact hexDigits_valid .sha512 _

abbrev sha2 : Sha2 where
  hexHash := hexOf
  hexHash_valid := hexOf_valid

def untypedJson : Json := .obj [("config", .obj [("digest",
  .str "sha256:2d711642b726b04401627ca9fbac32f5c8530fb1903cc4db02258717921a4881")])]

def typedJson : Json := .obj [("config", .obj [("mediaType", .str "m"), ("digest",
  .str "sha256:2d711642b726b04401627ca9fbac32f5c8530fb1903cc4db02258717921a4881"),
  ("size", .posInt 1)])]

def indexJson (children : List String) : Json := .obj [("manifests", .arr (children.map fun digest =>
  .obj [("mediaType", .str "m"), ("digest", .str digest)]))]

abbrev serdeJson : SerdeJson where
  fromSlice content :=
    if content = untyped then some untypedJson
    else if content = braces then some (.obj [])
    else if content = brackets then some (.arr [])
    else if content = typed then some typedJson
    else if content = innerIndex then some (indexJson
      ["sha256:3b4f912f62d0182393b9335f3a481ae6199b3ff72c1ab9ed21686f66198b47f5"])
    else if content = outerIndex then some (indexJson
      ["sha256:7f365c78878c058d6134e6d328b1df75bd237913ed79239979a7c0c059b0b325",
        "sha256:3b4f912f62d0182393b9335f3a481ae6199b3ff72c1ab9ed21686f66198b47f5"])
    else none

def dataX : RepoName := ⟨"data/x", by decide⟩

def v1 : TagName := ⟨"v1", by decide⟩

def v2 : TagName := ⟨"v2", by decide⟩

-- Two directories, and nothing in any other.
def roots [Sha2] (zero one : FsStorage) (root : RootId) : FsStorage :=
  match root with
  | 0 => zero
  | 1 => one
  | _ => .new

theorem collisionFree [Sha2] {w : World} (texts : List Bytes)
    (hroots : ∀ root, (w.roots root).texts ⊆ texts)
    (hdistinct : ∀ algorithm, ∀ a ∈ texts, ∀ b ∈ texts,
      hashContent algorithm a = hashContent algorithm b → a = b) : w.volumes.CollisionFree := by
  have hstores : ∀ content, w.volumes.Stores content → content ∈ texts := by
    rintro content ⟨root, hheld⟩
    exact hroots root ((w.roots root).mem_texts content hheld)
  intro algorithm a b ha hb hab
  exact hdistinct algorithm a (hstores a ha) b (hstores b hb) hab

theorem texts_roots [Sha2] {zero one : FsStorage} {texts : List Bytes} (hzero : zero.texts ⊆ texts)
    (hone : one.texts ⊆ texts) (root : RootId) : (roots zero one root).texts ⊆ texts :=
  match root with
  | 0 => hzero
  | 1 => hone
  | _ + 2 => List.nil_subset _

-- What is to be checked of two directories and the texts in them.
theorem collisionFree_roots [Sha2] {w : World} {zero one : FsStorage} (texts : List Bytes)
    (hroots : w.roots = roots zero one)
    (h : (zero.texts ⊆ texts ∧ one.texts ⊆ texts) ∧ ∀ algorithm ∈ [Algorithm.sha256, .sha512],
      ∀ a ∈ texts, ∀ b ∈ texts, hashContent algorithm a = hashContent algorithm b → a = b) :
    w.volumes.CollisionFree := by
  obtain ⟨⟨hzero, hone⟩, hdistinct⟩ := h
  apply collisionFree texts
  · rw [hroots]
    exact texts_roots hzero hone
  · intro algorithm
    exact hdistinct algorithm (by cases algorithm <;> simp)

-- A run that stays in the two directories.
def staysBelow (op : Op) : Bool :=
  match op with
  | .fs root _ => root < 2
  | _ => true

theorem texts_failAfter [Sha2] {α : Type} {prog : StoreM α} {left : Option Nat} {w w' : World}
    {zero one : FsStorage} {texts : List Bytes} (hroots : w.roots = roots zero one)
    (hrun : (prog.run World.failAfter (left, w)).2.2 = w')
    (hcalls : (prog.calls World.failAfter (left, w)).all staysBelow = true)
    (hzero : (w'.roots 0).texts ⊆ texts) (hone : (w'.roots 1).texts ⊆ texts) (root : RootId) :
    (w'.roots root).texts ⊆ texts := by
  match root with
  | 0 => exact hzero
  | 1 => exact hone
  | root + 2 =>
      have hkeep := Calls.Prog.run_keeps (fun s : Option Nat × World => s.2.roots (root + 2))
        (List.all_eq_true.mp hcalls) (by
          intro op s hop
          apply World.failAfter_other
          rintro call rfl
          simp [staysBelow] at hop)
      have hsame : w'.roots (root + 2) = w.roots (root + 2) := by
        rw [← hrun]
        exact hkeep
      rw [hsame, hroots]
      exact List.nil_subset _

-- The only rule's handle is the first that was allocated.
theorem arcs_one : ∀ rule ∈ (RepoRouter.single (.fs 0 0)).rules, rule.backend.arc < 1 := by decide

theorem arcs_two : ∀ rule ∈ (RepoRouter.single (.fs 0 0)).rules, rule.backend.arc < 2 := by decide

section

attribute [local instance] sha2

-- One image on the volume of the only rule.
def stored : World where
  roots := roots (FsStorage.new.manifestPut dataX (.tag v1) braces).2 .new
  router := .single (.fs 0 0)
  nextArc := 2
  arcs_allocated := arcs_two

theorem stored_collisionFree : stored.volumes.CollisionFree :=
  collisionFree_roots [braces] rfl (by decide +kernel)

end

end RspaceRegistry.Sample
