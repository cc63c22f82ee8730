import CloudyNeigh.LocalList
import CloudyNeigh.NamespaceScope

/-!
# The layout of the storage keys

Every key that the packages build, by its kind and arguments. A key is the list of
its components, and the key of one kind or argument is never an initial part of
another. The log, the local store and its listing go by the components, so the
layout keeps kinds, namespaces and branches apart in all of them.
-/
namespace CloudyNeigh.Naming
open SlashPath
open LocalDisk (Visible Plain PlainKey Below)
open LogStream (fixedDigits seqSuffix segmentKey)

abbrev Name := { name : String // Valid name }

def Name.scope (n : Name) : Scope := ⟨n.1⟩

def isLowerHex (c : UInt8) : Bool := (48 ≤ c && c ≤ 57) || (97 ≤ c && c ≤ 102)

/-- The text of a hash, as `hex.EncodeToString` writes it. -/
@[ext]
structure SegmentID where
  text : String
  nonempty : bytes text ≠ []
  lowerHex : ∀ c ∈ bytes text, isLowerHex c = true

inductive StorageKey
  | catalog
  | branches (ns : Name)
  | manifest (ns branch : Name)
  | segment (ns : Name) (id : SegmentID)
  | wal (ns : Name) (seq : UInt64)

def StorageKey.encode : StorageKey → SlashPath.Path
  | .catalog => CatalogFile
  | .branches ns => ns.scope.branchesKey
  | .manifest ns branch => ns.scope.ManifestKey branch.1
  | .segment ns id => ns.scope.SegmentKey id.text
  | .wal ns seq => segmentKey ns.scope.WALPrefix seq.toNat

def StorageKey.components : StorageKey → List SlashPath.Path
  | .catalog => [CatalogFile]
  | .branches ns => [bytes "ns", bytes ns.1, bytes "branches.json"]
  | .manifest ns branch => manifestComponents ns.scope branch.1
  | .segment ns id => [bytes "ns", bytes ns.1, bytes "segments", bytes id.text ++ bytes ".recordio"]
  | .wal ns seq => [bytes "ns", bytes ns.1, bytes "wal", fixedDigits 20 seq.toNat ++ seqSuffix]

section Components

lemma visible_append {name z : SlashPath.Path} (hne : name ≠ []) (hdot : dot ∉ name)
    (hs : sep ∉ name) (hz : sep ∉ z) : Visible (name ++ z) := by
  obtain ⟨c, cs, rfl⟩ := List.exists_cons_of_ne_nil hne
  have hc : c ≠ dot := fun he => hdot (by simp [he])
  refine ⟨⟨by simp, ?_, ?_, fun hmem => (List.mem_append.mp hmem).elim hs hz⟩,
    by simpa [LocalDisk.hidden] using hc⟩ <;> simp [hc]

lemma Name.visible (n : Name) {z : SlashPath.Path} (hz : sep ∉ z) :
    Visible (bytes n.1 ++ z) := by
  obtain ⟨hne, hall⟩ := n.2.bytes
  exact visible_append hne (fun h => isNameByte_ne_dot (hall _ h) rfl)
    (fun h => isNameByte_ne_sep (hall _ h) rfl) hz

lemma SegmentID.visible (id : SegmentID) :
    Visible (bytes id.text ++ bytes ".recordio") :=
  visible_append id.nonempty (fun h => absurd (id.lowerHex _ h) (by decide))
    (fun h => absurd (id.lowerHex _ h) (by decide)) (by decide +kernel)

lemma digits_visible (seq : ℕ) :
    Visible (fixedDigits 20 seq ++ seqSuffix) := by
  refine visible_append ?_ (fun h => ?_) (fun h => ?_) (by decide)
  · intro he
    simpa [he] using LogStream.fixedDigits_length 20 seq
  · exact absurd (LogStream.fixedDigits_isDigit 20 seq _ h) (by decide)
  · exact absurd (LogStream.fixedDigits_isDigit 20 seq _ h) (by decide)

lemma literals_visible : ∀ c ∈ [bytes "ns", bytes "refs", bytes "heads", bytes "segments",
    bytes "wal", bytes "branches.json", CatalogFile], Visible c := by
  decide +kernel

lemma StorageKey.plain (k : StorageKey) : Plain k.components := by
  have hlit := literals_visible
  simp only [List.forall_mem_cons] at hlit
  obtain ⟨hns, hrefs, hheads, hsegs, hwal, hbr, hcat, -⟩ := hlit
  have hname : ∀ n : Name, Visible (bytes n.1) := fun n => by
    simpa using n.visible (z := []) (by simp)
  cases k with
  | catalog => exact ⟨by simp [components], by simpa [components] using hcat⟩
  | branches ns => exact ⟨by simp [components], by simpa [components] using ⟨hns, hname ns, hbr⟩⟩
  | manifest ns branch =>
    refine ⟨by simp [components, manifestComponents], ?_⟩
    simpa [components, manifestComponents] using
      ⟨hns, hname ns, hrefs, hheads, branch.visible (z := bytes ".json") (by decide +kernel)⟩
  | segment ns id =>
    exact ⟨by simp [components], by simpa [components] using ⟨hns, hname ns, hsegs, id.visible⟩⟩
  | wal ns seq =>
    exact ⟨by simp [components],
      by simpa [components] using ⟨hns, hname ns, hwal, digits_visible seq.toNat⟩⟩

lemma StorageKey.ne_nil (k : StorageKey) : k.components ≠ [] := k.plain.1

lemma StorageKey.encode_eq (k : StorageKey) : k.encode = [sep].intercalate k.components := by
  have hord := k.plain.ordinary
  cases k with
  | catalog => rfl
  | branches ns =>
    have hb : ∀ c ∈ [bytes "branches.json"], Ordinary c := by
      simpa using hord (bytes "branches.json") (by simp [components])
    have hpath := scopePath_components (s := ns.scope) ns.2 (by simp) hb
    rw [List.intercalate_singleton] at hpath
    exact hpath
  | manifest ns branch => exact manifestKey_components ns.2 branch.2
  | segment ns id =>
    simp only [components, List.forall_mem_cons] at hord
    obtain ⟨-, -, hsegs, hid, -⟩ := hord
    have hj := join_components (A := [bytes "segments"]) (B := [bytes id.text ++ bytes ".recordio"])
      (by simp) (by simp) (by simpa using hsegs) (by simpa using hid)
    rw [List.intercalate_singleton, List.intercalate_singleton, ← bytes_append] at hj
    rw [encode, Scope.SegmentKey, hj, bytes_append]
    exact scopePath_components (s := ns.scope) ns.2 (by simp) (by simpa using ⟨hsegs, hid⟩)
  | wal ns seq =>
    have hj : [sep].intercalate ([bytes "ns", bytes ns.1, bytes "wal"] ++
        [fixedDigits 20 seq.toNat ++ seqSuffix]) = _ := intercalate_append [sep] (by simp) (by simp)
    have hw := walPrefix_components (s := ns.scope) ns.2
    rw [List.intercalate_singleton] at hj
    rw [encode, segmentKey, hw, List.append_assoc]
    exact hj.symm

end Components

section Layout

lemma fixedDigits_injective {m n : UInt64} (h : fixedDigits 20 m.toNat = fixedDigits 20 n.toNat) :
    m = n := by
  have hkey : segmentKey [] m.toNat = segmentKey [] n.toNat := by rw [segmentKey, segmentKey, h]
  exact UInt64.toNat_inj.mp (LogStream.segmentKey_injective m.toNat_lt n.toNat_lt hkey)

/-- The components of a key are no initial part of those of another. -/
theorem StorageKey.components_isPrefix {k k' : StorageKey} (h : k.components <+: k'.components) :
    k = k' := by
  cases k <;> cases k'
  case catalog.catalog => rfl
  case branches.branches ns ns' =>
    have hns : ns.1 = ns'.1 := by simpa [components, bytes_injective.eq_iff] using h
    rw [Subtype.ext hns]
  case manifest.manifest ns branch ns' branch' =>
    have he : ns.1 = ns'.1 ∧ branch.1 = branch'.1 := by
      simpa [components, manifestComponents, Name.scope, bytes_injective.eq_iff] using h
    rw [Subtype.ext he.1, Subtype.ext he.2]
  case segment.segment ns id ns' id' =>
    have he : ns.1 = ns'.1 ∧ id.text = id'.text := by
      simpa [components, bytes_injective.eq_iff] using h
    rw [Subtype.ext he.1, SegmentID.ext he.2]
  case wal.wal ns seq ns' seq' =>
    have he : ns.1 = ns'.1 ∧ fixedDigits 20 seq.toNat = fixedDigits 20 seq'.toNat := by
      simpa [components, bytes_injective.eq_iff] using h
    rw [Subtype.ext he.1, fixedDigits_injective he.2]
  -- Keys of different kinds differ in a component that does not depend on the arguments.
  all_goals simp [components, manifestComponents, CatalogFile, bytes_injective.eq_iff] at h

lemma StorageKey.encode_injective : Function.Injective encode := by
  intro k k' h
  rw [encode_eq, encode_eq] at h
  have hc := intercalate_injective k.ne_nil k'.ne_nil k.plain.ordinary k'.plain.ordinary h
  exact components_isPrefix (hc ▸ List.prefix_refl _)

lemma walComponents_ordinary (ns : Name) :
    ∀ c ∈ [bytes "ns", bytes ns.scope.Namespace, bytes "wal"], Ordinary c := by
  have hns : Valid ns.scope.Namespace := ns.2
  simpa using ⟨ordinary_literals.1, hns.component, ordinary_wal⟩

/-- Under the prefix of a log there are the keys of this log only. -/
lemma walPrefix_isPrefix_iff (ns : Name) (k : StorageKey) :
    ns.scope.WALPrefix ++ [sep] <+: k.encode ↔ ∃ seq, k = .wal ns seq := by
  rw [walPrefix_components (s := ns.scope) ns.2, k.encode_eq,
    isPrefix_intercalate_iff (by simp) k.ne_nil (walComponents_ordinary ns) k.plain.ordinary]
  cases k with
  | catalog => simp [StorageKey.components]
  | branches ns' => simp [StorageKey.components, bytes_injective.eq_iff]
  | manifest ns' branch => simp [StorageKey.components, manifestComponents, bytes_injective.eq_iff]
  | segment ns' id => simp [StorageKey.components, bytes_injective.eq_iff]
  | wal ns' seq =>
    simp [StorageKey.components, Name.scope, bytes_injective.eq_iff, Subtype.ext_iff, eq_comm]

/-- No key is a directory above another. -/
lemma StorageKey.not_parent (k k' : StorageKey) : ¬ k.encode ++ [sep] <+: k'.encode := by
  rw [k.encode_eq, k'.encode_eq,
    isPrefix_intercalate_iff k.ne_nil k'.ne_nil k.plain.ordinary k'.plain.ordinary]
  rintro ⟨hpre, hne⟩
  exact hne (congrArg components (components_isPrefix hpre))

lemma StorageKey.path_eq (k : StorageKey) (s : LocalDisk.Store) :
    s.path k.encode = .ok (absolute (parts s.dir ++ k.components)) := by
  rw [k.encode_eq]
  exact s.path_components k.ne_nil k.plain.ordinary

lemma StorageKey.path_injective (s : LocalDisk.Store) :
    Function.Injective fun k : StorageKey => s.path k.encode := by
  intro k k' h
  simp only [path_eq, Except.ok.injEq] at h
  have hc := absolute_injective (s.ordinary_append k.plain.ordinary)
    (s.ordinary_append k'.plain.ordinary) h
  exact components_isPrefix (List.append_cancel_left hc ▸ List.prefix_refl _)

lemma StorageKey.plainKey (k : StorageKey) : PlainKey k.encode := by
  have hp := k.plain.plainKey
  rwa [relative, if_neg k.ne_nil, ← k.encode_eq] at hp

section Prefixes
variable {cs : List SlashPath.Path}

lemma mem_intercalate {b : UInt8} (h : b ∈ [sep].intercalate cs) : b = sep ∨ ∃ c ∈ cs, b ∈ c := by
  induction cs with
  | nil => simp at h
  | cons c cs ih =>
    cases cs with
    | nil => exact .inr ⟨c, by simp, by simpa using h⟩
    | cons c' cs =>
      rw [List.intercalate_cons_cons] at h
      rcases List.mem_append.mp h with h | h
      · rcases List.mem_append.mp h with h | h
        · exact .inr ⟨c, by simp, h⟩
        · exact .inl (List.mem_singleton.mp h)
      · exact (ih h).imp_right fun ⟨d, hd, hbd⟩ => ⟨d, List.mem_cons_of_mem _ hd, hbd⟩

/-- A log accepts every prefix that is made of components with letters, digits, `-`
and `_`. -/
lemma validPrefix_components (hne : cs ≠ []) (h : ∀ c ∈ cs, Ordinary c)
    (hbytes : ∀ c ∈ cs, ∀ b ∈ c, isNameByte b = true) :
    LogStream.validPrefix ([sep].intercalate cs) = true := by
  have hsplit := splitOn_components hne h
  have hnil : ([] : SlashPath.Path) ∉ cs := fun hmem => (h [] hmem).ne_nil rfl
  have hhead : ([sep].intercalate cs).head? ≠ some LogStream.slash := head_intercalate h
  have hlast : ([sep].intercalate cs).getLast? ≠ some LogStream.slash := by
    intro hl
    obtain ⟨init, he⟩ := List.getLast?_eq_some_iff.mp hl
    have he' : [sep].intercalate cs = init ++ sep :: [] := he
    rw [he', splitOn_append_sep] at hsplit
    exact hnil (hsplit ▸ by simp [List.splitOn_nil])
  have hdouble : ¬ [LogStream.slash, LogStream.slash] <:+: [sep].intercalate cs := by
    rintro ⟨a, b, he⟩
    have he' : [sep].intercalate cs = a ++ sep :: ([] ++ sep :: b) := by
      rw [← he, List.append_assoc]
      rfl
    rw [he', splitOn_append_sep, splitOn_append_sep] at hsplit
    exact hnil (hsplit ▸ by simp [List.splitOn_nil])
  refine Bool.and_eq_true_iff.mpr ⟨?_, List.all_eq_true.mpr fun b hb => ?_⟩
  · simp [intercalate_ne_nil hne h, hhead, hlast, hdouble]
  · rcases mem_intercalate hb with rfl | ⟨c, hc, hbc⟩
    · decide
    · have hname := hbytes c hc b hbc
      simp only [isNameByte, isLetter, LogStream.isDigit, Bool.or_eq_true, decide_eq_true_eq,
        beq_iff_eq] at hname ⊢
      tauto

end Prefixes

/-- Kinds, namespaces, branches, segments and sequence numbers never meet in a key, in
the log of a namespace, in a path of the local store or in its listing. -/
theorem key_layout_unambiguous :
    Function.Injective StorageKey.encode ∧
    (∀ ns : Name, LogStream.validPrefix ns.scope.WALPrefix = true) ∧
    (∀ (ns : Name) (k : StorageKey),
      ns.scope.WALPrefix ++ [sep] <+: k.encode ↔ ∃ seq, k = .wal ns seq) ∧
    (∀ s : LocalDisk.Store, (Function.Injective fun k : StorageKey => s.path k.encode) ∧
      ∀ k : StorageKey, ∃ target, s.path k.encode = .ok target ∧ Below s.dir target) ∧
    (∀ k k' : StorageKey, ¬ k.encode ++ [sep] <+: k'.encode) ∧
    ∀ k : StorageKey, PlainKey k.encode := by
  refine ⟨StorageKey.encode_injective, fun ns => ?_, walPrefix_isPrefix_iff, fun s =>
    ⟨StorageKey.path_injective s, fun k => ⟨_, k.path_eq s, ?_⟩⟩, StorageKey.not_parent,
    StorageKey.plainKey⟩
  · rw [walPrefix_components (s := ns.scope) ns.2]
    refine validPrefix_components (by simp) (walComponents_ordinary ns) ?_
    have hns : ∀ b ∈ bytes ns.scope.Namespace, isNameByte b = true := ns.2.bytes.2
    have hlit : ∀ c ∈ [bytes "ns", bytes "wal"], ∀ b ∈ c, isNameByte b = true := by decide +kernel
    simp only [List.forall_mem_cons] at hlit ⊢
    exact ⟨hlit.1, hns, hlit.2⟩
  · exact (LocalDisk.below_absolute k.plain.ordinary).mpr k.ne_nil

end Layout

end CloudyNeigh.Naming
