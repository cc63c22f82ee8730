import CloudyNeigh.FileTree
import CloudyNeigh.LogStreamKey
import CloudyNeigh.MemStore
import CloudyNeigh.SlashPathClean

/-!
# The local store on a tree of files

The operations of `localStore`, one call after the other, on the tree below `/`.
Paths are byte strings, cleaned and joined as `filepath` does on a slash-separated
system without symbolic links below the root; the tree goes by their components.
Names of temporary files, clock readings and what `os.Stat` says of a directory are
parameters of a call.
-/
namespace CloudyNeigh.LocalDisk
open RecordIO SlashPath ObjectStore Listing
open FileTree (Tree Node Stat)
open LocalStore (Condition File localGeneration validLocalGeneration advanceLocalModTime
  nextLocalModTime)
open LogStream (ascii pathBase)

/-- `dir` is absolute and clean, as `newLocalStore` makes it. -/
structure Store where
  dir : Path
  rooted : Rooted dir

/-- `last` is the `lastLocalModTime` of the process. -/
structure Disk where
  tree : Tree Path File
  last : ℤ

def Store.path (s : Store) (key : Path) : Except StoreErr Path :=
  if key = [] then .error .emptyKey
  else
    let clean := Clean key
    if IsAbs clean = true ∨ clean = [dot, dot] ∨ [dot, dot, sep] <+: clean then
      .error (.invalidKey key)
    else .ok (Join [s.dir, clean])

/-- The error of `os.Stat` for a path that is not there: `IsNotExist` only if no
file is in the way. -/
def missing (tree : Tree Path File) (p : List Path) (key : Path) : StoreErr :=
  if p.dropLast.inits.any fun q => (tree.file q).isSome then .system else .notFound key

def object (key : Path) (f : File) : Object := ⟨key, f.generation, f.data.length⟩

def Store.open (s : Store) (d : Disk) (key : Path) : Except StoreErr File :=
  match s.path key with
  | .error e => .error e
  | .ok target =>
    match d.tree.stat (parts target) with
    | none => .error (missing d.tree (parts target) key)
    | some .dir => .error (.notFound key)
    | some (.file f) => .ok f

def Store.Stat (s : Store) (d : Disk) (key : Path) : Except StoreErr Object :=
  (s.open d key).map (object key)

def Store.Get (s : Store) (d : Disk) (key : Path) : Except StoreErr (Bytes × Object) :=
  (s.open d key).map fun f => (f.data, object key f)

def Store.Exists (s : Store) (d : Disk) (key : Path) : Except StoreErr Bool :=
  match s.path key with
  | .error e => .error e
  | .ok target =>
    match d.tree.stat (parts target) with
    | none =>
      match missing d.tree (parts target) key with
      | .notFound _ => .ok false
      | e => .error e
    | some .dir => .ok false
    | some (.file _) => .ok true

/-- What a call meets outside of the store. -/
structure CallEnv where
  random : List (Fin 10) := []
  now : ℤ := 0
  dirTime : ℤ := 0
  dirSize : ℕ := 0
  /-- Copying or closing the temporary file fails, or the process dies there. -/
  stopped : Bool := false
  /-- The deferred `os.Remove` of the temporary file takes place. -/
  cleaned : Bool := true
  deriving DecidableEq, Repr

def CallEnv.modTime (env : CallEnv) : Stat File → ℤ
  | .file f => f.modTime
  | .dir => env.dirTime

def CallEnv.generation (env : CallEnv) : Stat File → Bytes
  | .file f => f.generation
  | .dir => localGeneration env.dirTime env.dirSize

def Store.Delete (s : Store) (d : Disk) (key : Path) (env : CallEnv) :
    Except StoreErr Unit × Disk :=
  match s.path key with
  | .error e => (.error e, d)
  | .ok target =>
    match d.tree.stat (parts target) with
    | none => (.error (missing d.tree (parts target) key), d)
    | some fi =>
      match d.tree.remove (parts target) with
      | none => (.error .system, d)
      | some tree => (.ok (), ⟨tree, advanceLocalModTime d.last (env.modTime fi)⟩)

def tempName (random : List (Fin 10)) : Path :=
  ascii ".tmp-" ++ random.map fun c : Fin 10 => UInt8.ofNat (48 + c.val)

/-- `os.CreateTemp(dir, ".tmp-*")`. -/
def tempPath (dir : Path) (random : List (Fin 10)) : Path :=
  if dir.getLast? = some sep then dir ++ tempName random else dir ++ sep :: tempName random

def chtimes (tree : Tree Path File) (p : List Path) (t : ℤ) : Option (Tree Path File) :=
  tree.modify p fun f => { f with modTime := t }

/-- The generation that `Put` returns, from a last `os.Stat`. -/
def newGeneration (tree : Tree Path File) (target : List Path) (env : CallEnv) :
    Except StoreErr Bytes :=
  match tree.stat target with
  | none => .error .system
  | some fi => .ok (env.generation fi)

/-- `Put` from the point where its temporary file is written and closed. -/
def publish (d : Disk) (target tmpPath : List Path) (key : Path) (cond : Condition)
    (env : CallEnv) : Except StoreErr Bytes × Disk :=
  if cond.Absent then
    let t := nextLocalModTime d.last env.now
    match chtimes d.tree tmpPath t with
    | none => (.error .system, ⟨d.tree, t⟩)
    | some tree =>
      match tree.link tmpPath target with
      | none =>
        (.error (if (tree.stat target).isSome then .preconditionFailed key else .system), ⟨tree, t⟩)
      | some tree => (newGeneration tree target env, ⟨tree, t⟩)
  else
    let fi := d.tree.stat target
    let last := match fi with
      | some fi => advanceLocalModTime d.last (env.modTime fi)
      | none => d.last
    if cond.GenerationMatch ≠ [] ∧ fi.map env.generation ≠ some cond.GenerationMatch then
      (.error (.preconditionFailed key), ⟨d.tree, last⟩)
    else
      let t := nextLocalModTime last env.now
      match chtimes d.tree tmpPath t with
      | none => (.error .system, ⟨d.tree, t⟩)
      | some tree =>
        match tree.rename tmpPath target with
        | none => (.error .system, ⟨tree, t⟩)
        | some tree => (newGeneration tree target env, ⟨tree, t⟩)

/-- The errors of the deferred `os.Remove` are ignored. -/
def removeTemp (tree : Tree Path File) (tmpPath : List Path) (env : CallEnv) : Tree Path File :=
  if env.cleaned then (tree.remove tmpPath).getD tree else tree

def Store.Put (s : Store) (d : Disk) (key data : Path) (cond : Condition) (env : CallEnv) :
    Except StoreErr Bytes × Disk :=
  match s.path key with
  | .error e => (.error e, d)
  | .ok target =>
    if cond.GenerationMatch ≠ [] ∧ validLocalGeneration cond.GenerationMatch = false then
      (.error (.malformedGeneration key cond.GenerationMatch), d)
    else
      match d.tree.mkdirAll (parts (Dir target)) with
      | none => (.error .system, d)
      | some tree =>
        let tmpPath := parts (tempPath (Dir target) env.random)
        match tree.create tmpPath ⟨data, env.now⟩ with
        | none => (.error .system, ⟨tree, d.last⟩)
        | some tree =>
          let r := if env.stopped then (.error .system, ⟨tree, d.last⟩)
            else publish ⟨tree, d.last⟩ (parts target) tmpPath key cond env
          (r.1, ⟨removeTemp r.2.tree tmpPath env, r.2.last⟩)

section Paths
variable {s : Store} {key target : Path}

lemma Store.root_ordinary (s : Store) : ∀ c ∈ parts s.dir, Ordinary c := by
  obtain ⟨A, hA, he⟩ := s.rooted
  rwa [he, parts_absolute hA]

lemma Store.ordinary_append (s : Store) {cs : List Path} (h : ∀ c ∈ cs, Ordinary c) :
    ∀ c ∈ parts s.dir ++ cs, Ordinary c :=
  fun c hc => (List.mem_append.mp hc).elim (s.root_ordinary c) (h c)

lemma Store.absolute_root (s : Store) : absolute (parts s.dir) = s.dir := by
  obtain ⟨A, hA, he⟩ := s.rooted
  rw [he, parts_absolute hA]

/-- An accepted key is resolved by appending its components to those of the root. -/
lemma Store.path_ok (h : s.path key = .ok target) : ∃ cs, (∀ c ∈ cs, Ordinary c) ∧
    Clean key = relative cs ∧ target = absolute (parts s.dir ++ cs) := by
  simp only [path] at h
  split at h
  · cases h
  split at h
  · cases h
  rename_i hclean
  push Not at hclean
  obtain ⟨habs, hdd, hup⟩ := hclean
  obtain ⟨cs, hcs, he⟩ := clean_inner (by simpa using habs) hdd hup
  refine ⟨cs, hcs, he, ?_⟩
  cases h
  rw [he, ← join_absolute s.root_ordinary hcs, s.absolute_root]

/-- Every key of ordinary components is accepted. -/
lemma Store.path_components (s : Store) {cs : List Path} (hne : cs ≠ [])
    (hcs : ∀ c ∈ cs, Ordinary c) :
    s.path ([sep].intercalate cs) = .ok (absolute (parts s.dir ++ cs)) := by
  have hkey : [sep].intercalate cs ≠ [] := intercalate_ne_nil hne hcs
  have habs : IsAbs ([sep].intercalate cs) ≠ true := by
    simpa [IsAbs] using head_intercalate hcs
  have hdd : [dot, dot] ∉ cs := fun hmem => (hcs _ hmem).ne_dots rfl
  have hsplit := splitOn_components hne hcs
  have hrel : relative cs = [sep].intercalate cs := if_neg hne
  unfold Store.path
  rw [if_neg hkey, clean_components hne hcs, if_neg, ← hrel,
    ← join_absolute s.root_ordinary hcs, s.absolute_root]
  rintro (h | h | ⟨rest, h⟩)
  · exact habs h
  · rw [h] at hsplit
    exact hdd (hsplit ▸ by decide)
  · have he : [sep].intercalate cs = [dot, dot] ++ sep :: rest := h.symm
    rw [he, splitOn_append_sep] at hsplit
    refine hdd (hsplit ▸ List.mem_append_left _ ?_)
    decide

lemma tempName_ordinary (random : List (Fin 10)) : Ordinary (tempName random) := by
  have hlen : 5 ≤ (tempName random).length := by simp [tempName, ascii]
  refine ⟨?_, ?_, ?_, ?_⟩
  · intro he
    simp [he] at hlen
  · intro he
    simp [he] at hlen
  · intro he
    simp [he] at hlen
  · intro hmem
    rcases List.mem_append.mp hmem with h | h
    · exact absurd h (by decide)
    · obtain ⟨c, -, hc⟩ := List.mem_map.mp h
      revert hc
      revert c
      decide

lemma tempPath_absolute {A : List Path} (h : ∀ c ∈ A, Ordinary c) (random : List (Fin 10)) :
    tempPath (absolute A) random = absolute (A ++ [tempName random]) := by
  unfold tempPath
  by_cases hA : A = []
  · rw [hA, if_pos (by decide)]
    simp [absolute]
  · rw [if_neg (getLast_absolute h hA), absolute_concat, if_neg hA]

lemma temp_ordinary {cs : List Path} (hcs : ∀ c ∈ cs, Ordinary c) (random : List (Fin 10)) :
    ∀ c ∈ cs.dropLast ++ [tempName random], Ordinary c := by
  intro c hc
  rcases List.mem_append.mp hc with hc | hc
  · exact hcs c (List.mem_of_mem_dropLast hc)
  · rw [List.mem_singleton.mp hc]
    exact tempName_ordinary random

/-- The temporary file is beside the target. -/
lemma Store.tempPath_components (s : Store) {cs : List Path} (hne : cs ≠ [])
    (hcs : ∀ c ∈ cs, Ordinary c) (random : List (Fin 10)) :
    tempPath (Dir (absolute (parts s.dir ++ cs))) random =
      absolute (parts s.dir ++ (cs.dropLast ++ [tempName random])) := by
  have hlast : Ordinary (cs.getLast hne) := hcs _ (List.getLast_mem hne)
  have hinit : ∀ c ∈ parts s.dir ++ cs.dropLast, Ordinary c :=
    s.ordinary_append fun c hc => hcs c (List.mem_of_mem_dropLast hc)
  conv_lhs => rw [← List.dropLast_append_getLast hne, ← List.append_assoc]
  rw [dir_absolute hinit hlast, tempPath_absolute hinit, List.append_assoc]

end Paths

section Effects
variable {tree tree' : Tree Path File} {target tmp : List Path} {data : Bytes} {env : CallEnv}

/-- What a `Put` does to the files: nothing but to its temporary file and, if it
succeeds, to its target. -/
structure PutEffect (tree tree' : Tree Path File) (target tmp : List Path) (data : Bytes)
    (r : Except StoreErr Bytes) : Prop where
  other : ∀ q, q ≠ tmp → q ≠ target → tree'.file q = tree.file q
  written : tmp ≠ target → (∃ gen, r = .ok gen) → ∃ t, tree'.file target = some ⟨data, t⟩
  kept : tmp ≠ target → (∃ e, r = .error e) → tree'.file target = tree.file target

lemma PutEffect.refused (e : StoreErr) (h : tree'.file = tree.file) :
    PutEffect tree tree' target tmp data (.error e) where
  other q _ _ := by rw [h]
  written _ hok := by
    obtain ⟨gen, hgen⟩ := hok
    cases hgen
  kept _ _ := by rw [h]

/-- A change to the temporary file before or after does not matter. -/
lemma PutEffect.of_temp {tree₀ tree₁ : Tree Path File} {r : Except StoreErr Bytes}
    (h : PutEffect tree tree' target tmp data r)
    (h₀ : ∀ q, q ≠ tmp → tree.file q = tree₀.file q)
    (h₁ : ∀ q, q ≠ tmp → tree₁.file q = tree'.file q) :
    PutEffect tree₀ tree₁ target tmp data r where
  other q hq hq' := by rw [h₁ q hq, h.other q hq hq', h₀ q hq]
  written hne hok := by
    rw [h₁ target hne.symm]
    exact h.written hne hok
  kept hne he := by rw [h₁ target hne.symm, h.kept hne he, h₀ target hne.symm]

/-- The target has the data, and nothing else was touched. -/
lemma PutEffect.published {t : ℤ} (hother : ∀ q, q ≠ tmp → q ≠ target → tree'.file q = tree.file q)
    (htarget : tree'.file target = some ⟨data, t⟩) :
    PutEffect tree tree' target tmp data (newGeneration tree' target env) where
  other := hother
  written _ _ := ⟨t, htarget⟩
  kept _ herr := by
    obtain ⟨e, he⟩ := herr
    simp [newGeneration, Tree.file_eq_some.mp htarget] at he

lemma chtimes_file {t t₀ : ℤ} (h : chtimes tree tmp t = some tree')
    (htmp : tree.file tmp = some ⟨data, t₀⟩) :
    tree'.file = Function.update tree.file tmp (some ⟨data, t⟩) := by
  obtain ⟨f, hf, hfile⟩ := Tree.file_modify h
  rw [htmp] at hf
  cases hf
  exact hfile

/-- The temporary file gets its time, and then the target has what it holds. -/
lemma moved_effect {t t₀ : ℤ} {tree₁ tree₂ : Tree Path File}
    (htmp : tree.file tmp = some ⟨data, t₀⟩) (hch : chtimes tree tmp t = some tree₁)
    (hother : ∀ q, q ≠ tmp → q ≠ target → tree₂.file q = tree₁.file q)
    (htarget : tree₂.file target = tree₁.file tmp) :
    PutEffect tree tree₂ target tmp data (newGeneration tree₂ target env) := by
  have h₁ := chtimes_file hch htmp
  refine PutEffect.published (fun q hq hq' => ?_) (by rw [htarget, h₁, Function.update_self])
  rw [hother q hq hq', h₁, Function.update_of_ne hq]

lemma link_effect {t t₀ : ℤ} {tree₁ tree₂ : Tree Path File} (htmp : tree.file tmp = some ⟨data, t₀⟩)
    (hch : chtimes tree tmp t = some tree₁) (hlink : tree₁.link tmp target = some tree₂) :
    PutEffect tree tree₂ target tmp data (newGeneration tree₂ target env) := by
  obtain ⟨f, hf, h₂⟩ := Tree.file_link hlink
  refine moved_effect htmp hch (fun q _ hq' => ?_) (by rw [h₂, Function.update_self, hf])
  rw [h₂, Function.update_of_ne hq']

lemma rename_effect {t t₀ : ℤ} {tree₁ tree₂ : Tree Path File}
    (htmp : tree.file tmp = some ⟨data, t₀⟩) (hch : chtimes tree tmp t = some tree₁)
    (hren : tree₁.rename tmp target = some tree₂) :
    PutEffect tree tree₂ target tmp data (newGeneration tree₂ target env) := by
  obtain ⟨f, hf, h₂⟩ := Tree.file_rename hren
  refine moved_effect htmp hch (fun q hq hq' => ?_) (by rw [h₂, Function.update_self, hf])
  rw [h₂, Function.update_of_ne hq', Function.update_of_ne hq]

lemma chtimes_refused {t t₀ : ℤ} (htmp : tree.file tmp = some ⟨data, t₀⟩) (e : StoreErr)
    (hch : chtimes tree tmp t = some tree') :
    PutEffect tree tree' target tmp data (.error e) := by
  have hsame : PutEffect tree tree target tmp data (.error e) := .refused e rfl
  refine hsame.of_temp (fun _ _ => rfl) fun q hq => ?_
  rw [chtimes_file hch htmp, Function.update_of_ne hq]

lemma publish_effect (d : Disk) (key : Path) (cond : Condition) {t₀ : ℤ}
    (htmp : d.tree.file tmp = some ⟨data, t₀⟩) :
    PutEffect d.tree (publish d target tmp key cond env).2.tree target tmp data
      (publish d target tmp key cond env).1 := by
  unfold publish
  by_cases habs : cond.Absent = true
  · simp only [habs, if_true]
    cases hch : chtimes d.tree tmp (nextLocalModTime d.last env.now) with
    | none => exact .refused _ rfl
    | some tree₁ =>
      cases hlink : tree₁.link tmp target with
      | none => simpa [hlink] using chtimes_refused htmp _ hch
      | some tree₂ => simpa [hlink] using link_effect htmp hch hlink
  · simp only [habs, Bool.false_eq_true, if_false]
    split
    · exact .refused _ rfl
    · generalize nextLocalModTime _ env.now = t
      cases hch : chtimes d.tree tmp t with
      | none => exact .refused _ rfl
      | some tree₁ =>
        cases hren : tree₁.rename tmp target with
        | none => simpa [hren] using chtimes_refused htmp _ hch
        | some tree₂ => simpa [hren] using rename_effect htmp hch hren

lemma removeTemp_file (q : List Path) (hq : q ≠ tmp) :
    (removeTemp tree tmp env).file q = tree.file q := by
  unfold removeTemp
  split
  · cases hrem : tree.remove tmp with
    | none => rfl
    | some tree' =>
      rw [Option.getD_some, Tree.file_remove hrem, Function.update_of_ne hq]
  · rfl

/-- One `Put`, whatever its result. -/
theorem put_effect {s : Store} {key path : Path} (d : Disk) (cond : Condition)
    (h : s.path key = .ok path) :
    PutEffect d.tree (s.Put d key data cond env).2.tree (parts path)
      (parts (tempPath (Dir path) env.random)) data (s.Put d key data cond env).1 := by
  simp only [Store.Put, h]
  split
  · exact .refused _ rfl
  cases hdir : d.tree.mkdirAll (parts (Dir path)) with
  | none => exact .refused _ rfl
  | some tree₁ =>
    have h₁ := Tree.file_mkdirAll hdir
    cases hnew : tree₁.create (parts (tempPath (Dir path) env.random)) ⟨data, env.now⟩ with
    | none =>
      simp only [hnew]
      exact .refused _ h₁
    | some tree₂ =>
      have h₂ := Tree.file_create hnew
      have hbefore : ∀ q, q ≠ parts (tempPath (Dir path) env.random) →
          tree₂.file q = d.tree.file q := fun q hq => by
        rw [h₂, Function.update_of_ne hq, h₁]
      simp only [hnew]
      refine PutEffect.of_temp ?_ hbefore removeTemp_file
      split
      · exact .refused _ rfl
      · exact publish_effect ⟨tree₂, d.last⟩ key cond (by rw [h₂, Function.update_self])

end Effects

section Confinement
variable {s : Store} {key key' target target' : Path}

/-- A proper descendant of the directory. -/
def Below (root p : Path) : Prop := parts root <+: parts p ∧ parts root ≠ parts p

instance (root p : Path) : Decidable (Below root p) := inferInstanceAs (Decidable (_ ∧ _))

/-- The target and the temporary file of the key are below the root, a `Put` of it
changes no other file, and a `Delete` of it leaves the root in place. -/
structure Confined (s : Store) (key target : Path) : Prop where
  below : Below s.dir target
  temp : ∀ random, Below s.dir (tempPath (Dir target) random)
  put : ∀ d data cond env q, ¬ (parts s.dir <+: q ∧ parts s.dir ≠ q) →
    (s.Put d key data cond env).2.tree.file q = d.tree.file q
  delete : ∀ d env, d.tree.stat (parts s.dir) = some .dir →
    (s.Delete d key env).2.tree.stat (parts s.dir) = some .dir

lemma below_absolute {cs : List Path} (hcs : ∀ c ∈ cs, Ordinary c) :
    Below s.dir (absolute (parts s.dir ++ cs)) ↔ cs ≠ [] := by
  rw [Below, parts_absolute (s.ordinary_append hcs)]
  simp

lemma delete_stat (h : s.path key = .ok target) (d : Disk) (env : CallEnv) {q : List Path}
    (hq : q ≠ parts target) : (s.Delete d key env).2.tree.stat q = d.tree.stat q := by
  simp only [Store.Delete, h]
  cases hfi : d.tree.stat (parts target) with
  | none => rfl
  | some fi =>
    cases hrem : d.tree.remove (parts target) with
    | none => rfl
    | some tree =>
      simp only
      rw [(Tree.stat_remove hrem).2, Function.update_of_ne hq]

/-- A `Delete` that succeeds takes its path away, and one that fails changes nothing. -/
lemma delete_effect (h : s.path key = .ok target) (d : Disk) (env : CallEnv) :
    ((s.Delete d key env).1 = .ok () ∧
      (s.Delete d key env).2.tree.file = Function.update d.tree.file (parts target) none) ∨
    ∃ e, s.Delete d key env = (.error e, d) := by
  simp only [Store.Delete, h]
  cases hfi : d.tree.stat (parts target) with
  | none => exact .inr ⟨_, rfl⟩
  | some fi =>
    cases hrem : d.tree.remove (parts target) with
    | none => exact .inr ⟨_, rfl⟩
    | some tree => exact .inl ⟨rfl, Tree.file_remove hrem⟩

theorem confined_of_ne_nil {cs : List Path} (hcs : ∀ c ∈ cs, Ordinary c) (hne : cs ≠ [])
    (h : s.path key = .ok (absolute (parts s.dir ++ cs))) :
    Confined s key (absolute (parts s.dir ++ cs)) := by
  have htarget : Below s.dir (absolute (parts s.dir ++ cs)) := (below_absolute hcs).mpr hne
  have htemp : ∀ random, Below s.dir (tempPath (Dir (absolute (parts s.dir ++ cs))) random) := by
    intro random
    rw [s.tempPath_components hne hcs]
    exact (below_absolute (temp_ordinary hcs random)).mpr (by simp)
  refine ⟨htarget, htemp, fun d data cond env q hq => ?_, fun d env hroot => ?_⟩
  · refine (put_effect d cond h).other q ?_ ?_
    · rintro rfl
      exact hq (htemp env.random)
    · rintro rfl
      exact hq htarget
  · rw [delete_stat h d env htarget.2, hroot]

/-- Accepted keys stay below the root, except those that clean to `.`, and lead to
the same path only if they clean to the same key. -/
theorem keys_stay_below_root_iff (s : Store) :
    (∀ key target, s.path key = .ok target → (Confined s key target ↔ Clean key ≠ [dot])) ∧
    ∀ key key' target target', s.path key = .ok target → s.path key' = .ok target' →
      (target = target' ↔ Clean key = Clean key') := by
  constructor
  · intro key target h
    obtain ⟨cs, hcs, hclean, rfl⟩ := Store.path_ok h
    have hdot : Clean key = [dot] ↔ cs = [] := by
      rw [hclean]
      refine ⟨fun he => relative_injective hcs (by simp) (he.trans ?_), ?_⟩
      · rfl
      · rintro rfl
        rfl
    constructor
    · intro hconf he
      exact (below_absolute hcs).mp hconf.below (hdot.mp he)
    · intro hne
      exact confined_of_ne_nil hcs (fun he => hne (hdot.mpr he)) h
  · intro key key' target target' h h'
    obtain ⟨cs, hcs, hclean, rfl⟩ := Store.path_ok h
    obtain ⟨cs', hcs', hclean', rfl⟩ := Store.path_ok h'
    rw [hclean, hclean']
    constructor
    · intro he
      have hcomp := absolute_injective (s.ordinary_append hcs) (s.ordinary_append hcs') he
      rw [List.append_cancel_left hcomp]
    · intro he
      rw [relative_injective hcs hcs' he]

def dataRoot : Store := ⟨ascii "/data", [ascii "data"], by decide, by decide⟩

-- The root is an empty directory.
def emptyRoot : Disk := ⟨⟨.dir (ascii "data") .nil .nil, rfl, trivial, trivial⟩, 0⟩

theorem keys_stay_below_root_iff_up : dataRoot.path (ascii "a/../b") = .ok (ascii "/data/b") ∧
    Confined dataRoot (ascii "a/../b") (ascii "/data/b") := by
  have h : dataRoot.path (ascii "a/../b") = .ok (ascii "/data/b") := by rfl
  exact ⟨h, ((keys_stay_below_root_iff dataRoot).1 _ _ h).mpr (by decide)⟩

/-- The key `.` is the root: a `Put` of it writes beside the root, and a `Delete` of
it removes the root. -/
theorem dot_key_is_root : dataRoot.path [dot] = .ok (ascii "/data") ∧
    ¬ Confined dataRoot [dot] (ascii "/data") ∧
    (dataRoot.Put emptyRoot [dot] [1] {} ⟨[7], 5, 0, 0, true, false⟩).2.tree.file
      [ascii ".tmp-7"] = some ⟨[1], 5⟩ ∧
    (dataRoot.Delete emptyRoot [dot] {}).1 = .ok () ∧
    (dataRoot.Delete emptyRoot [dot] {}).2.tree.stat [ascii "data"] = none := by
  refine ⟨by rfl, fun hconf => ?_, by decide +kernel, by rfl, by decide +kernel⟩
  exact absurd hconf.below (by decide)

end Confinement

end CloudyNeigh.LocalDisk
