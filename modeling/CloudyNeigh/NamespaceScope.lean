import CloudyNeigh.SlashPath

/-!
# Names and manifest keys

Names are validated before they enter the system, and the manifest keys of two
valid branch names are different.
-/
namespace CloudyNeigh.Naming
open SlashPath

/-- The bytes of a Go string. -/
def bytes (s : String) : Path := s.toUTF8.data.toList

def DefaultBranch : String := "main"

def CatalogFile : Path := bytes "ns.json"

inductive NameErr
  | empty
  | mustStartWithLetter (name : String)
  | invalidCharacter (c : UInt8) (name : String)
  deriving DecidableEq, Repr

def isLetter (c : UInt8) : Bool := (97 ≤ c && c ≤ 122) || (65 ≤ c && c ≤ 90)

def isNameByte (c : UInt8) : Bool := isLetter c || (48 ≤ c && c ≤ 57) || c = 45 || c = 95

def ValidateName (name : String) : Except NameErr Unit :=
  match bytes name with
  | [] => .error .empty
  | first :: rest =>
    if isLetter first = false then .error (.mustStartWithLetter name)
    else match rest.find? fun c => !isNameByte c with
      | some c => .error (.invalidCharacter c name)
      | none => .ok ()

/-- A name that `ValidateName` accepts. -/
abbrev Valid (name : String) : Prop := ValidateName name = .ok ()

instance : DecidableEq (Except NameErr Unit)
  | .ok _, .ok _ => isTrue rfl
  | .error e, .error e' => decidable_of_iff (e = e') (by simp)
  | .ok _, .error _ => isFalse (by simp)
  | .error _, .ok _ => isFalse (by simp)

structure Scope where
  Namespace : String
  deriving DecidableEq, Repr

def Scope.Validate (s : Scope) : Except NameErr Unit := ValidateName s.Namespace

def Scope.Prefix (s : Scope) : SlashPath.Path := Join [bytes "ns", bytes s.Namespace]

def Scope.Path (s : Scope) (subpath : SlashPath.Path) : SlashPath.Path := Join [s.Prefix, subpath]

def Scope.WALPrefix (s : Scope) : SlashPath.Path := s.Path (bytes "wal")

def Scope.ManifestKey (s : Scope) (branch : String) : SlashPath.Path :=
  s.Path (Join [bytes "refs/heads", bytes (branch ++ ".json")])

def Scope.SegmentKey (s : Scope) (segID : String) : SlashPath.Path :=
  s.Path (Join [bytes "segments", bytes (segID ++ ".recordio")])

def Scope.branchesKey (s : Scope) : SlashPath.Path := s.Path (bytes "branches.json")

lemma bytes_append (s t : String) : bytes (s ++ t) = bytes s ++ bytes t := by
  simp [bytes]

lemma bytes_injective : Function.Injective bytes := by
  intro s t h
  have hd : s.toUTF8.data = t.toUTF8.data := Array.toList_inj.mp h
  exact String.toByteArray_inj.mp (ByteArray.ext hd)

lemma Valid.bytes {name : String} (h : Valid name) :
    Naming.bytes name ≠ [] ∧ ∀ c ∈ Naming.bytes name, isNameByte c = true := by
  unfold Valid ValidateName at h
  split at h
  · cases h
  · rename_i first rest hb
    split at h
    · cases h
    · rename_i hfirst
      split at h
      · cases h
      · rename_i hfind
        have hrest : ∀ c ∈ rest, isNameByte c = true := by
          simpa using List.find?_eq_none.mp hfind
        have hf : isNameByte first = true := by simp [isNameByte, Bool.not_eq_false _ ▸ hfirst]
        rw [hb]
        exact ⟨by simp, by simpa using ⟨hf, hrest⟩⟩

lemma isNameByte_ne_sep {c : UInt8} (h : isNameByte c = true) : c ≠ sep := by
  rintro rfl
  revert h
  decide

lemma isNameByte_ne_dot {c : UInt8} (h : isNameByte c = true) : c ≠ dot := by
  rintro rfl
  revert h
  decide

/-- A valid name, with or without a suffix, is an ordinary path component. -/
lemma Valid.ordinary {name : String} (h : Valid name) {z : Path} (hs : sep ∉ z) :
    Ordinary (Naming.bytes name ++ z) := by
  obtain ⟨hne, hall⟩ := h.bytes
  obtain ⟨c, cs, hb⟩ := List.exists_cons_of_ne_nil hne
  have hc : c ≠ dot := isNameByte_ne_dot (hall c (by simp [hb]))
  have hsep : sep ∉ Naming.bytes name := fun hm => isNameByte_ne_sep (hall sep hm) rfl
  refine ⟨by simp [hb], ?_, ?_, by simp [hsep, hs]⟩ <;> simp [hb, hc]

def manifestComponents (s : Scope) (branch : String) : List SlashPath.Path :=
  [bytes "ns", bytes s.Namespace, bytes "refs", bytes "heads", bytes branch ++ bytes ".json"]

section Keys
variable {s : Scope} {b b' : String}

lemma ordinary_literals : Ordinary (bytes "ns") ∧ Ordinary (bytes "refs") ∧
    Ordinary (bytes "heads") := by
  refine ⟨⟨?_, ?_, ?_, ?_⟩, ⟨?_, ?_, ?_, ?_⟩, ⟨?_, ?_, ?_, ?_⟩⟩ <;> decide +kernel

lemma ordinary_wal : Ordinary (bytes "wal") := by
  refine ⟨?_, ?_, ?_, ?_⟩ <;> decide +kernel

lemma Valid.component (hs : Valid s.Namespace) : Ordinary (Naming.bytes s.Namespace) := by
  simpa using hs.ordinary (z := []) (by simp)

lemma scopePrefix_components (hs : Valid s.Namespace) :
    s.Prefix = [sep].intercalate [bytes "ns", bytes s.Namespace] := by
  simpa [Scope.Prefix] using join_components (A := [bytes "ns"]) (B := [bytes s.Namespace])
    (by simp) (by simp) (by simpa using ordinary_literals.1) (by simpa using hs.component)

lemma scopePath_components (hs : Valid s.Namespace) {B : List SlashPath.Path} (hne : B ≠ [])
    (hB : ∀ c ∈ B, Ordinary c) :
    s.Path ([sep].intercalate B) = [sep].intercalate ([bytes "ns", bytes s.Namespace] ++ B) := by
  rw [Scope.Path, scopePrefix_components hs]
  exact join_components (by simp) hne (by simpa using ⟨ordinary_literals.1, hs.component⟩) hB

lemma manifestComponents_ordinary (hs : Valid s.Namespace) (hb : Valid b) :
    ∀ c ∈ manifestComponents s b, Ordinary c := by
  obtain ⟨hns, hrefs, hheads⟩ := ordinary_literals
  have hn := hs.component
  have hj : Ordinary (bytes b ++ bytes ".json") := hb.ordinary (by decide +kernel)
  simp only [manifestComponents, List.forall_mem_cons]
  exact ⟨hns, hn, hrefs, hheads, hj, by simp⟩

lemma manifestKey_components (hs : Valid s.Namespace) (hb : Valid b) :
    s.ManifestKey b = [sep].intercalate (manifestComponents s b) := by
  have hall := manifestComponents_ordinary hs hb
  simp only [manifestComponents, List.forall_mem_cons] at hall
  obtain ⟨-, -, hrefs, hheads, hj, -⟩ := hall
  have hrh : bytes "refs/heads" = [sep].intercalate [bytes "refs", bytes "heads"] := by
    decide +kernel
  have hr := join_components (A := [bytes "refs", bytes "heads"])
    (B := [bytes b ++ bytes ".json"]) (by simp) (by simp)
    (by simpa using ⟨hrefs, hheads⟩) (by simpa using hj)
  rw [List.intercalate_singleton, ← hrh] at hr
  rw [Scope.ManifestKey, bytes_append, hr]
  exact scopePath_components hs (by simp) (by simpa using ⟨hrefs, hheads, hj⟩)

/-- Valid branch names never share a manifest. -/
theorem manifestKey_injective (hs : Valid s.Namespace) (hb : Valid b) (hb' : Valid b')
    (h : s.ManifestKey b = s.ManifestKey b') : b = b' := by
  rw [manifestKey_components hs hb, manifestKey_components hs hb'] at h
  have hc := intercalate_injective (by simp [manifestComponents]) (by simp [manifestComponents])
    (manifestComponents_ordinary hs hb) (manifestComponents_ordinary hs hb') h
  have he : bytes b ++ bytes ".json" = bytes b' ++ bytes ".json" := by
    simpa [manifestComponents] using hc
  exact bytes_injective (List.append_cancel_right he)

lemma walPrefix_components (hs : Valid s.Namespace) :
    s.WALPrefix = [sep].intercalate [bytes "ns", bytes s.Namespace, bytes "wal"] := by
  have hj := scopePath_components hs (B := [bytes "wal"]) (by simp) (by simpa using ordinary_wal)
  rwa [List.intercalate_singleton] at hj

/-- Valid namespaces never share a directory. -/
theorem scopePrefix_injective {s' : Scope} (hs : Valid s.Namespace) (hs' : Valid s'.Namespace)
    (h : s.Prefix = s'.Prefix) : s = s' := by
  rw [scopePrefix_components hs, scopePrefix_components hs'] at h
  have hc := intercalate_injective (by simp) (by simp)
    (by simpa using ⟨ordinary_literals.1, hs.component⟩)
    (by simpa using ⟨ordinary_literals.1, hs'.component⟩) h
  cases s
  cases s'
  simpa using bytes_injective (by simpa using hc)

/-- Valid namespaces never share a log. -/
theorem walPrefix_injective {s' : Scope} (hs : Valid s.Namespace) (hs' : Valid s'.Namespace)
    (h : s.WALPrefix = s'.WALPrefix) : s = s' := by
  rw [walPrefix_components hs, walPrefix_components hs'] at h
  have hc := intercalate_injective (by simp) (by simp)
    (by simpa using ⟨ordinary_literals.1, hs.component, ordinary_wal⟩)
    (by simpa using ⟨ordinary_literals.1, hs'.component, ordinary_wal⟩) h
  cases s
  cases s'
  simpa using bytes_injective (by simpa using hc)

-- names that are not valid can share one
example : (Scope.mk "a").ManifestKey "x" = (Scope.mk "a").ManifestKey "./x" := by decide +kernel

end Keys

end CloudyNeigh.Naming
