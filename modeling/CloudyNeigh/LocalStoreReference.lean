import CloudyNeigh.KeyLayout
import CloudyNeigh.LocalStoreCas
import CloudyNeigh.MemStoreReference

/-!
# The local store is the reference store

`localStore` in one process that has the directory for itself, one call after the other, on
keys none of which is a parent of another. A temporary file gets a name that is not taken,
and may be left behind.
-/
namespace CloudyNeigh.LocalDisk
open RecordIO SlashPath ObjectStore Listing Transition
open FileTree (Tree Node Stat)
open LocalStore (Condition File localGeneration validLocalGeneration advanceLocalModTime
  nextLocalModTime nextLocalModTime_gt maxInt64 localGeneration_injective)
open LogStream (ascii pathBase)

/-- A family of keys, none of them a directory on the way to another. -/
structure KeyFamily where
  holds : Path → Prop
  plain : ∀ key, holds key → PlainKey key
  free : ∀ key key', holds key → holds key' → key.splitOn sep <+: key'.splitOn sep → key = key'

def Store.answer (s : Store) (d : Disk) (env : CallEnv) : StoreRequest → StoreReply × Disk
  | .stat key => (.ofExcept .object (s.Stat d key), d)
  | .get key => (.ofExcept (fun r => .data r.1 r.2) (s.Get d key), d)
  | .readRange key offset length =>
    (.ofExcept (fun r => .data r.1 r.2) (s.ReadRange d key offset length), d)
  | .exists key => (.ofExcept .found (s.Exists d key), d)
  | .put key data cond =>
    (.ofExcept .generation (s.Put d key data cond env).1, (s.Put d key data cond env).2)
  | .delete key => (.ofExcept (fun _ => .deleted) (s.Delete d key env).1, (s.Delete d key env).2)
  | .list pfx startAfter limit => (.ofExcept .objects (s.List d pfx startAfter limit), d)

def Store.calls (s : Store) (d₀ : Disk) : Machine (Recorded Disk StoreEvent) (StoreRequest × CallEnv) :=
  recorded d₀ fun d a => (some (a.1, (s.answer d a.2 a.1).1), (s.answer d a.2 a.1).2)

/-- The keys of a request are of the family. -/
def KeyFamily.Within (K : KeyFamily) : StoreRequest → Prop
  | .stat key | .get key | .readRange key _ _ | .exists key | .put key _ _ | .delete key =>
    K.holds key
  | .list _ _ _ => True

/-- `os.CreateTemp` finds a name that is not taken. -/
def TempFree (s : Store) (d : Disk) (random : List (Fin 10)) : StoreRequest → Prop
  | .put key _ _ =>
    d.tree.stat (parts s.dir ++ ((key.splitOn sep).dropLast ++ [tempName random])) = none
  | _ => True

/-- What is asked of the callers and of the system: no write is stopped, and neither the
clock nor the last time that was given is at its end. -/
def Store.Alone (s : Store) (K : KeyFamily) (t : Recorded Disk StoreEvent)
    (a : StoreRequest × CallEnv) : Prop :=
  K.Within a.1 ∧ a.1.Modest ∧ TempFree s t.state a.2.random a.1 ∧ a.2.stopped = false ∧
    a.2.now ≤ maxInt64 ∧ t.state.last < maxInt64

def fileVersion (f : File) : Version := ⟨f.data, f.generation⟩

section Writing
variable {tree tree₁ : Tree Path File} {P : List Path} {x y key : Path} {data : Bytes}
  {env : CallEnv} {cond : Condition} {last : ℤ}

/-- A file can be written to `x` in the directory `P` by way of `y`. -/
structure Clear (tree : Tree Path File) (P : List Path) (x y : Path) : Prop where
  way : ∀ q, q <+: P → tree.file q = none
  temp : tree.stat (P ++ [y]) = none
  target : tree.stat (P ++ [x]) ≠ some .dir
  ne : x ≠ y

/-- The tree with the directories on the way to `P`. -/
def made (tree : Tree Path File) (P q : List Path) : Option (Stat File) :=
  if q <+: P then some .dir else tree.stat q

/-- How a `Put` ends that nothing stands in the way of, by what is seen of the tree beside
its temporary file. -/
inductive Ends (tree : Tree Path File) (P : List Path) (x y key : Path) (data : Bytes)
    (accepted : Prop) (last : ℤ) : Except StoreErr Bytes × Disk → Prop
  | written (ok : accepted) (t : ℤ) (later : last < t) (bound : t ≤ maxInt64)
    (tree' : Tree Path File) (stat : ∀ q, q ≠ P ++ [y] →
      tree'.stat q = Function.update (made tree P) (P ++ [x]) (some (.file ⟨data, t⟩)) q) :
    Ends tree P x y key data accepted last (.ok (localGeneration t data.length), ⟨tree', t⟩)
  | refused (no : ¬ accepted) (last' : ℤ) (later : last ≤ last') (tree' : Tree Path File)
    (stat : ∀ q, q ≠ P ++ [y] → tree'.stat q = made tree P q) :
    Ends tree P x y key data accepted last (.error (.preconditionFailed key), ⟨tree', last'⟩)

lemma made_self (tree : Tree Path File) (P : List Path) : made tree P P = some .dir :=
  if_pos List.prefix_rfl

lemma made_entry (tree : Tree Path File) (P : List Path) (x : Path) :
    made tree P (P ++ [x]) = tree.stat (P ++ [x]) :=
  if_neg fun h => ne_append_of_isPrefix h (List.cons_ne_nil x []) rfl

lemma concat_ne (P : List Path) (h : x ≠ y) : P ++ [x] ≠ P ++ [y] := fun he =>
  h (List.singleton_inj.mp (List.append_cancel_left he))

lemma temp_created (h : Clear tree P x y) (f : File) :
    ∃ tree₁ tree₂, tree.mkdirAll P = some tree₁ ∧ tree₁.create (P ++ [y]) f = some tree₂ ∧
      tree₂.stat = Function.update (made tree P) (P ++ [y]) (some (.file f)) := by
  have hway : ∀ q a, q <+: P → tree.stat q ≠ some (.file a) := by
    intro q a hq hs
    have hnone := h.way q hq
    rw [Tree.file_eq_some.mpr hs] at hnone
    cases hnone
  obtain ⟨tree₁, h₁⟩ := Tree.mkdirAll_exists hway
  have hs₁ : tree₁.stat = made tree P := funext fun q => Tree.stat_mkdirAll h₁ q
  have hdir : tree₁.stat P = some .dir := by rw [hs₁, made_self]
  have hfree : tree₁.stat (P ++ [y]) = none := by rw [hs₁, made_entry, h.temp]
  obtain ⟨tree₂, h₂⟩ := Tree.create_exists hdir hfree f
  have hs₂ := (Tree.stat_create h₂).2
  rw [hs₁] at hs₂
  exact ⟨tree₁, tree₂, h₁, h₂, hs₂⟩

section Staged
variable {f : File} (hs : tree₁.stat = Function.update (made tree P) (P ++ [y]) (some (.file f)))
include hs

lemma staged_dir : tree₁.stat P = some .dir := by
  rw [hs, Function.update_of_ne (ne_append_of_isPrefix List.prefix_rfl (List.cons_ne_nil y [])),
    made_self]

lemma staged_temp : tree₁.stat (P ++ [y]) = some (.file f) := by rw [hs, Function.update_self]

lemma staged_target (h : Clear tree P x y) : tree₁.stat (P ++ [x]) = tree.stat (P ++ [x]) := by
  rw [hs, Function.update_of_ne (concat_ne P h.ne), made_entry]

lemma chtimes_staged (t : ℤ) : ∃ tree₂, chtimes tree₁ (P ++ [y]) t = some tree₂ ∧
    tree₂.stat = Function.update (made tree P) (P ++ [y]) (some (.file { f with modTime := t })) := by
  obtain ⟨tree₂, h₂⟩ := Tree.modify_exists (staged_dir hs) (staged_temp hs)
    fun f => { f with modTime := t }
  obtain ⟨f', hf', hs₂⟩ := Tree.stat_modify h₂
  rw [staged_temp hs] at hf'
  cases hf'
  rw [hs, Function.update_idem] at hs₂
  exact ⟨tree₂, h₂, hs₂⟩

lemma link_staged (h : Clear tree P x y) (hnone : tree.stat (P ++ [x]) = none) :
    ∃ tree₂, tree₁.link (P ++ [y]) (P ++ [x]) = some tree₂ ∧ ∀ q, q ≠ P ++ [y] →
      tree₂.stat q = Function.update (made tree P) (P ++ [x]) (some (.file f)) q := by
  rw [← staged_target hs h] at hnone
  obtain ⟨tree₂, h₂⟩ := Tree.link_exists (staged_dir hs) (staged_temp hs) hnone
  obtain ⟨f', hf', -, hs₂⟩ := Tree.stat_link h₂
  rw [staged_temp hs] at hf'
  cases hf'
  refine ⟨tree₂, h₂, fun q hq => ?_⟩
  rw [hs₂, hs, Function.update_comm (concat_ne P h.ne.symm), Function.update_of_ne hq]

lemma rename_staged (h : Clear tree P x y) :
    ∃ tree₂, tree₁.rename (P ++ [y]) (P ++ [x]) = some tree₂ ∧ ∀ q, q ≠ P ++ [y] →
      tree₂.stat q = Function.update (made tree P) (P ++ [x]) (some (.file f)) q := by
  have hdir := h.target
  rw [← staged_target hs h] at hdir
  obtain ⟨tree₂, h₂⟩ := Tree.rename_exists (staged_dir hs) (staged_temp hs) hdir
  obtain ⟨f', hf', -, hs₂⟩ := Tree.stat_rename h₂
  rw [staged_temp hs] at hf'
  cases hf'
  refine ⟨tree₂, h₂, fun q hq => ?_⟩
  rw [hs₂, hs, Function.update_idem, Function.update_comm (concat_ne P h.ne.symm),
    Function.update_of_ne hq]

end Staged

lemma nextLocalModTime_le {now : ℤ} (hlast : last < maxInt64) (hnow : now ≤ maxInt64) :
    nextLocalModTime last now ≤ maxInt64 := by
  unfold nextLocalModTime
  split
  · rw [if_neg hlast.ne]
    omega
  · exact hnow

lemma newGeneration_file {tree : Tree Path File} {p : List Path} {f : File}
    (h : tree.stat p = some (.file f)) : newGeneration tree p env = .ok f.generation := by
  simp only [newGeneration, h]
  rfl

/-- The generations of the targets that there are, as `Put` sees them. -/
lemma present_eq (env : CallEnv) (h : tree.stat (P ++ [x]) ≠ some .dir) :
    (tree.stat (P ++ [x])).map env.generation = (tree.file (P ++ [x])).map File.generation := by
  rw [Tree.file]
  cases hstat : tree.stat (P ++ [x]) with
  | none => rfl
  | some fi =>
    cases fi with
    | dir => exact absurd hstat h
    | file f => rfl

lemma publish_absent (h : Clear tree P x y)
    (hs : tree₁.stat = Function.update (made tree P) (P ++ [y]) (some (.file ⟨data, env.now⟩)))
    (hlast : last < maxInt64) (hnow : env.now ≤ maxInt64) (habs : cond.Absent = true) :
    Ends tree P x y key data (Accepts cond ((tree.file (P ++ [x])).map File.generation)) last
      (publish ⟨tree₁, last⟩ (P ++ [x]) (P ++ [y]) key cond env) := by
  have hlater := nextLocalModTime_gt env.now hlast
  obtain ⟨tree₂, h₂, hs₂⟩ := chtimes_staged hs (nextLocalModTime last env.now)
  simp only [publish, habs, if_true, h₂, accepts_absent habs, Option.map_eq_none_iff]
  cases hstat : tree.stat (P ++ [x]) with
  | none =>
    obtain ⟨tree₃, h₃, hs₃⟩ := link_staged hs₂ h hstat
    have hnew := hs₃ (P ++ [x]) (concat_ne P h.ne)
    rw [Function.update_self] at hnew
    simp only [h₃, newGeneration_file hnew]
    exact .written (by rw [Tree.file, hstat]; rfl) _ hlater (nextLocalModTime_le hlast hnow) _ hs₃
  | some fi =>
    cases fi with
    | dir => exact absurd hstat h.target
    | file f =>
      have htarget : tree₂.stat (P ++ [x]) = some (.file f) := by
        rw [staged_target hs₂ h, hstat]
      have hlink : tree₂.link (P ++ [y]) (P ++ [x]) = none := by
        simp only [Tree.link, staged_temp hs₂, htarget]
      simp only [hlink, htarget, Option.isSome_some, if_true]
      refine .refused ?_ _ hlater.le _ fun q hq => by rw [hs₂, Function.update_of_ne hq]
      rw [Tree.file_eq_some.mpr hstat]
      exact Option.some_ne_none f

section Matching
variable {d : Disk} {target tmp : List Path}
  (hadvance : ∀ fi, d.tree.stat target = some fi →
    advanceLocalModTime d.last (env.modTime fi) = d.last) (habs : cond.Absent = false)
include hadvance habs

lemma publish_refuses (hne : cond.GenerationMatch ≠ [])
    (hno : (d.tree.stat target).map env.generation ≠ some cond.GenerationMatch) :
    publish d target tmp key cond env = (.error (.preconditionFailed key), d) := by
  cases hstat : d.tree.stat target with
  | none => simp [publish, habs, hstat, hne]
  | some fi =>
    rw [hstat] at hno
    simp only [publish, habs, hstat, hadvance fi hstat, Bool.false_eq_true, if_false]
    rw [if_pos ⟨hne, hno⟩]

lemma publish_renames {tree₂ tree₃ : Tree Path File}
    (hok : cond.GenerationMatch = [] ∨
      (d.tree.stat target).map env.generation = some cond.GenerationMatch)
    (h₂ : chtimes d.tree tmp (nextLocalModTime d.last env.now) = some tree₂)
    (h₃ : tree₂.rename tmp target = some tree₃) :
    publish d target tmp key cond env =
      (newGeneration tree₃ target env, ⟨tree₃, nextLocalModTime d.last env.now⟩) := by
  cases hstat : d.tree.stat target with
  | none =>
    rw [hstat] at hok
    have hempty : cond.GenerationMatch = [] := hok.resolve_right (by simp)
    simp [publish, habs, hstat, hempty, h₂, h₃]
  | some fi =>
    rw [hstat] at hok
    simp only [publish, habs, hstat, hadvance fi hstat, Bool.false_eq_true, if_false]
    rw [if_neg (by tauto)]
    simp only [h₂, h₃]

end Matching

lemma publish_match (h : Clear tree P x y)
    (hs : tree₁.stat = Function.update (made tree P) (P ++ [y]) (some (.file ⟨data, env.now⟩)))
    (hlast : last < maxInt64) (hnow : env.now ≤ maxInt64)
    (hold : ∀ f, tree.file (P ++ [x]) = some f → f.modTime ≤ last) (habs : cond.Absent = false) :
    Ends tree P x y key data (Accepts cond ((tree.file (P ++ [x])).map File.generation)) last
      (publish ⟨tree₁, last⟩ (P ++ [x]) (P ++ [y]) key cond env) := by
  have htarget := staged_target hs h
  -- The times that `Put` sees were all given by it.
  have hadvance : ∀ fi, tree₁.stat (P ++ [x]) = some fi →
      advanceLocalModTime last (env.modTime fi) = last := by
    rw [htarget]
    intro fi hstat
    cases fi with
    | dir => exact absurd hstat h.target
    | file f => exact if_pos (hold f (Tree.file_eq_some.mpr hstat))
  rw [accepts_match habs, ← present_eq env h.target, ← htarget]
  by_cases hok : cond.GenerationMatch = [] ∨
      (tree₁.stat (P ++ [x])).map env.generation = some cond.GenerationMatch
  · obtain ⟨tree₂, h₂, hs₂⟩ := chtimes_staged hs (nextLocalModTime last env.now)
    obtain ⟨tree₃, h₃, hs₃⟩ := rename_staged hs₂ h
    have hnew := hs₃ (P ++ [x]) (concat_ne P h.ne)
    rw [Function.update_self] at hnew
    rw [publish_renames hadvance habs hok h₂ h₃, newGeneration_file hnew]
    exact .written hok _ (nextLocalModTime_gt env.now hlast) (nextLocalModTime_le hlast hnow) _ hs₃
  · rw [publish_refuses hadvance habs (fun he => hok (.inl he)) fun he => hok (.inr he)]
    exact .refused hok _ le_rfl _ fun q hq => by rw [hs, Function.update_of_ne hq]

lemma removeTemp_stat (q : List Path) (hq : q ≠ P ++ [y]) :
    (removeTemp tree (P ++ [y]) env).stat q = tree.stat q := by
  unfold removeTemp
  split
  · cases hrem : tree.remove (P ++ [y]) with
    | none => rfl
    | some tree' => rw [Option.getD_some, (Tree.stat_remove hrem).2, Function.update_of_ne hq]
  · rfl

lemma Ends.removeTemp {accepted : Prop} {r : Except StoreErr Bytes × Disk}
    (h : Ends tree P x y key data accepted last r) (env : CallEnv) :
    Ends tree P x y key data accepted last
      (r.1, ⟨LocalDisk.removeTemp r.2.tree (P ++ [y]) env, r.2.last⟩) := by
  cases h with
  | written ok t later bound tree' stat =>
    exact .written ok t later bound _ fun q hq => by rw [removeTemp_stat q hq, stat q hq]
  | refused no last' later tree' stat =>
    exact .refused no last' later _ fun q hq => by rw [removeTemp_stat q hq, stat q hq]

end Writing

section Keys
variable {s : Store} {d : Disk} {key : Path}

/-- The directory of a key. -/
def home (s : Store) (key : Path) : List Path := parts s.dir ++ (key.splitOn sep).dropLast

def lastPart (key : Path) : Path := (key.splitOn sep).getLast (List.splitOn_ne_nil sep key)

lemma home_lastPart (s : Store) (key : Path) :
    home s key ++ [lastPart key] = parts s.dir ++ key.splitOn sep := by
  rw [home, lastPart, List.append_assoc, List.dropLast_append_getLast]

lemma PlainKey.home_ordinary (h : PlainKey key) (s : Store) : ∀ c ∈ home s key, Ordinary c :=
  s.ordinary_append fun c hc => h.plain.ordinary c (List.mem_of_mem_dropLast hc)

lemma lastPart_mem (key : Path) : lastPart key ∈ key.splitOn sep := List.getLast_mem _

lemma PlainKey.dir_target (h : PlainKey key) (s : Store) :
    parts (Dir (absolute (parts s.dir ++ key.splitOn sep))) = home s key := by
  rw [← home_lastPart, dir_absolute (h.home_ordinary s) (h.plain.ordinary _ (lastPart_mem key)),
    parts_absolute (h.home_ordinary s)]

theorem put_ends {cond : Condition} {env : CallEnv} (data : Bytes) (hkey : PlainKey key)
    (hclear : Clear d.tree (home s key) (lastPart key) (tempName env.random))
    (hknown : cond.GenerationMatch ≠ [] → validLocalGeneration cond.GenerationMatch = true)
    (hlast : d.last < maxInt64) (hnow : env.now ≤ maxInt64) (hrun : env.stopped = false)
    (hold : ∀ f, d.tree.file (parts s.dir ++ key.splitOn sep) = some f → f.modTime ≤ d.last) :
    Ends d.tree (home s key) (lastPart key) (tempName env.random) key data
      (Accepts cond ((d.tree.file (parts s.dir ++ key.splitOn sep)).map File.generation)) d.last
      (s.Put d key data cond env) := by
  have hpl := hkey.plain
  have htemp : parts (tempPath (Dir (absolute (parts s.dir ++ key.splitOn sep))) env.random) =
      home s key ++ [tempName env.random] := by
    rw [s.tempPath_components hpl.1 hpl.ordinary,
      parts_absolute (s.ordinary_append (temp_ordinary hpl.ordinary env.random)), home,
      List.append_assoc]
  obtain ⟨tree₁, tree₂, h₁, h₂, hs₂⟩ := temp_created hclear ⟨data, env.now⟩
  simp only [Store.Put, hkey.path s, hkey.dir_target s, htemp, h₁, h₂, hrun, Bool.false_eq_true,
    if_false, parts_absolute (s.ordinary_append hpl.ordinary)]
  rw [if_neg fun hbad => by simp [hknown hbad.1] at hbad]
  rw [← home_lastPart] at hold ⊢
  refine Ends.removeTemp ?_ env
  cases habs : cond.Absent with
  | true => exact publish_absent hclear hs₂ hlast hnow habs
  | false => exact publish_match hclear hs₂ hlast hnow hold habs

end Keys

/-- The tree shows what the reference store holds: at the keys of the family, and the walk
of `List` comes to nothing else. -/
structure Shows (K : KeyFamily) (s : Store) (d : Disk) (shelf : Shelf) : Prop where
  shown : ∀ key, K.holds key →
    shelf.version key = (d.tree.file (parts s.dir ++ key.splitOn sep)).map fileVersion
  only : ∀ key, shelf.version key ≠ none → K.holds key
  files : ∀ rel f, Reached rel → d.tree.file (parts s.dir ++ rel) = some f →
    f.data.length < 2 ^ 63 ∧ ∃ key, K.holds key ∧ rel = key.splitOn sep
  dirs : ∀ rel, Reached rel → rel ≠ [] → d.tree.stat (parts s.dir ++ rel) = some .dir →
    ∃ key, K.holds key ∧ rel <+: (key.splitOn sep).dropLast
  above : ∀ q, q <+: parts s.dir → d.tree.file q = none
  times : ∀ i ∈ shelf.issued, ∃ t size, i.2 = localGeneration t size ∧ t ≤ d.last
  last : 0 ≤ d.last

section Shown
variable {K : KeyFamily} {s : Store} {d d' : Disk} {shelf shelf' : Shelf} {key : Path}

lemma splitOn_injective : Function.Injective fun key : Path => key.splitOn sep := by
  intro key key' h
  rw [← relative_splitOn key, ← relative_splitOn key']
  exact congrArg relative h

lemma isPrefix_append_cases {q R cs : List Path} (h : q <+: R ++ cs) :
    q <+: R ∨ ∃ rel, rel <+: cs ∧ q = R ++ rel := by
  rcases List.prefix_or_prefix_of_prefix h (List.prefix_append R cs) with hq | ⟨rel, rfl⟩
  · exact Or.inl hq
  · exact Or.inr ⟨rel, (List.prefix_append_right_inj R).mp h, rfl⟩

lemma KeyFamily.not_inside {key key' : Path} (hk : K.holds key) (hk' : K.holds key') :
    ¬ key.splitOn sep <+: (key'.splitOn sep).dropLast := by
  intro hpre
  obtain rfl := K.free key key' hk hk' (hpre.trans (List.dropLast_prefix _))
  have hlen := hpre.length_le
  have hpos := List.length_pos_of_ne_nil (List.splitOn_ne_nil sep key)
  rw [List.length_dropLast] at hlen
  omega

lemma KeyFamily.reached (hk : K.holds key) : Reached (key.splitOn sep) :=
  (K.plain key hk).plain.unskipped

/-- No file stands on the way to a key. -/
lemma Shows.way (h : Shows K s d shelf) (hk : K.holds key) {q : List Path}
    (hq : q <+: home s key) : d.tree.file q = none := by
  rcases isPrefix_append_cases hq with hq | ⟨rel, hrel, rfl⟩
  · exact h.above q hq
  · by_contra hne
    obtain ⟨f, hf⟩ := Option.ne_none_iff_exists'.mp hne
    have hreach : Reached rel := fun c hc =>
      K.reached hk c (List.mem_of_mem_dropLast (hrel.subset hc))
    obtain ⟨-, key', hk', rfl⟩ := h.files rel f hreach hf
    exact K.not_inside hk' hk hrel

lemma Shows.not_dir (h : Shows K s d shelf) (hk : K.holds key) :
    d.tree.stat (parts s.dir ++ key.splitOn sep) ≠ some .dir := by
  intro hdir
  obtain ⟨key', hk', hpre⟩ :=
    h.dirs _ (K.reached hk) (List.splitOn_ne_nil sep key) hdir
  exact K.not_inside hk hk' hpre

lemma tempName_ne_lastPart (hkey : PlainKey key) (random : List (Fin 10)) :
    lastPart key ≠ tempName random := by
  intro he
  have hvis := hkey.plain.unskipped _ (lastPart_mem key)
  rw [he, tempName_skipped] at hvis
  cases hvis

lemma Shows.clear (h : Shows K s d shelf) (hk : K.holds key) {random : List (Fin 10)}
    (htemp : d.tree.stat (home s key ++ [tempName random]) = none) :
    Clear d.tree (home s key) (lastPart key) (tempName random) where
  way _ hq := h.way hk hq
  temp := htemp
  target := by
    rw [home_lastPart]
    exact h.not_dir hk
  ne := tempName_ne_lastPart (K.plain key hk) random

/-- The times of the files are times that were given. -/
lemma Shows.modTime_le (h : Shows K s d shelf) (hs : shelf.Wf) (hk : K.holds key) {f : File}
    (hf : d.tree.file (parts s.dir ++ key.splitOn sep) = some f) : f.modTime ≤ d.last := by
  have hv := h.shown key hk
  rw [hf] at hv
  obtain ⟨t, size, hgen, ht⟩ := h.times _ (hs.issued_of_version hv)
  rw [(localGeneration_injective hgen).1]
  exact ht

/-- What is not there is reported as not found. -/
lemma Shows.missing_eq (h : Shows K s d shelf) (hk : K.holds key)
    (hnone : d.tree.stat (parts s.dir ++ key.splitOn sep) = none) :
    missing d.tree (parts s.dir ++ key.splitOn sep) key = .notFound key := by
  rcases LocalDisk.missing_eq d.tree (parts s.dir ++ key.splitOn sep) key with ⟨-, hfile⟩ | h'
  · obtain ⟨q, hq, hne⟩ := hfile
    rw [← home_lastPart] at hq hnone
    rcases List.prefix_concat_iff.mp hq with rfl | hq
    · exact absurd (by rw [Tree.file, hnone]; rfl) hne
    · exact absurd (h.way hk hq) hne
  · exact h'.1

/-- There is a file under the key, or nothing. -/
lemma Shows.stat_cases (h : Shows K s d shelf) (hk : K.holds key) :
    (d.tree.stat (parts s.dir ++ key.splitOn sep) = none ∧ shelf.version key = none) ∨
    ∃ f, d.tree.stat (parts s.dir ++ key.splitOn sep) = some (.file f) ∧
      f.data.length < 2 ^ 63 ∧ shelf.version key = some (fileVersion f) := by
  cases hstat : d.tree.stat (parts s.dir ++ key.splitOn sep) with
  | none => exact .inl ⟨rfl, by rw [h.shown key hk, Tree.file, hstat]; rfl⟩
  | some fi =>
    cases fi with
    | dir => exact absurd hstat (h.not_dir hk)
    | file f =>
      have hf := Tree.file_eq_some.mpr hstat
      exact .inr ⟨f, rfl, (h.files _ f (K.reached hk) hf).1, by rw [h.shown key hk, hf]; rfl⟩

lemma KeyFamily.parts_target (hk : K.holds key) (s : Store) :
    parts (absolute (parts s.dir ++ key.splitOn sep)) = parts s.dir ++ key.splitOn sep :=
  parts_absolute (s.ordinary_append (K.plain key hk).plain.ordinary)

section Replies

/-- What a reading call finds. -/
lemma Shows.open_cases (h : Shows K s d shelf) (hk : K.holds key) :
    (s.open d key = .error (.notFound key) ∧ shelf.version key = none) ∨
    ∃ f, s.open d key = .ok f ∧ f.data.length < 2 ^ 63 ∧
      shelf.version key = some (fileVersion f) := by
  have hpath := (K.plain key hk).path s
  rcases h.stat_cases hk with ⟨hstat, hv⟩ | ⟨f, hstat, hlen, hv⟩
  · refine .inl ⟨?_, hv⟩
    simp only [Store.open, hpath, K.parts_target hk, hstat, h.missing_eq hk hstat]
  · refine .inr ⟨f, ?_, hlen, hv⟩
    simp only [Store.open, hpath, K.parts_target hk, hstat]

lemma Shows.stat_reply (h : Shows K s d shelf) (hk : K.holds key) :
    .ofExcept .object (s.Stat d key) = statReply key (shelf.version key) := by
  rw [Store.Stat]
  rcases h.open_cases hk with ⟨hopen, hv⟩ | ⟨f, hopen, -, hv⟩
  · rw [hopen, hv]
    rfl
  · rw [hopen, hv]
    rfl

lemma Shows.get_reply (h : Shows K s d shelf) (hk : K.holds key) :
    .ofExcept (fun r => .data r.1 r.2) (s.Get d key) = getReply key (shelf.version key) := by
  rw [Store.Get]
  rcases h.open_cases hk with ⟨hopen, hv⟩ | ⟨f, hopen, -, hv⟩
  · rw [hopen, hv]
    rfl
  · rw [hopen, hv]
    rfl

lemma Shows.exists_reply (h : Shows K s d shelf) (hk : K.holds key) :
    s.Exists d key = .ok (shelf.version key).isSome := by
  have hpath := (K.plain key hk).path s
  rcases h.stat_cases hk with ⟨hstat, hv⟩ | ⟨f, hstat, -, hv⟩
  · simp only [Store.Exists, hpath, K.parts_target hk, hstat, h.missing_eq hk hstat, hv,
      Option.isSome_none]
  · simp only [Store.Exists, hpath, K.parts_target hk, hstat, hv, Option.isSome_some]

lemma Shows.range_reply (h : Shows K s d shelf) (hk : K.holds key) (offset length : Int64) :
    .ofExcept (fun r => .data r.1 r.2) (s.ReadRange d key offset length) =
      rangeReply key offset length (shelf.version key) := by
  rw [Store.ReadRange]
  rcases h.open_cases hk with ⟨hopen, hv⟩ | ⟨f, hopen, hlen, hv⟩
  · rw [hopen, hv, rangeReply]
    split <;> rfl
  · rw [hopen, hv, rangeReply_some]
    dsimp only
    split
    · rfl
    rename_i hneg
    rw [lt_zero_iff, lt_zero_iff] at hneg
    by_cases hexc : ((fileVersion f).data.length : ℤ) < offset.toInt
    · rw [if_pos ((ofNat_lt_iff hlen).mpr hexc), if_pos hexc]
      rfl
    · rw [if_neg fun hn => hexc ((ofNat_lt_iff hlen).mp hn), if_neg hexc,
        sectionReader_eq hlen (by omega) (by omega)]
      rfl

end Replies

/-- A call changes the version of one key, and what else it does is out of sight. -/
lemma Shows.next (h : Shows K s d shelf) (hk : K.holds key) {v : Option File}
    (hseen : ∀ q, q ≠ parts s.dir ++ key.splitOn sep →
      (q <+: parts s.dir ∨ ∃ rel, Reached rel ∧ q = parts s.dir ++ rel) →
      d'.tree.file q = d.tree.file q)
    (hat : d'.tree.file (parts s.dir ++ key.splitOn sep) = v)
    (hdirs : ∀ rel, Reached rel → d'.tree.stat (parts s.dir ++ rel) = some .dir →
      d.tree.stat (parts s.dir ++ rel) = some .dir ∨ rel <+: (key.splitOn sep).dropLast)
    (hsize : ∀ f, v = some f → f.data.length < 2 ^ 63)
    (hversion : shelf'.version = Function.update shelf.version key (v.map fileVersion))
    (hissued : ∀ i ∈ shelf'.issued, i ∈ shelf.issued ∨ ∃ size, i.2 = localGeneration d'.last size)
    (hlast : d.last ≤ d'.last) : Shows K s d' shelf' where
  shown key' hk' := by
    rw [hversion]
    by_cases he : key' = key
    · rw [he, Function.update_self, hat]
    · rw [Function.update_of_ne he, h.shown key' hk', hseen _ _ (.inr ⟨_, K.reached hk', rfl⟩)]
      exact fun hq => he (splitOn_injective (List.append_cancel_left hq))
  only key' hv := by
    rw [hversion] at hv
    by_cases he : key' = key
    · exact he ▸ hk
    · rw [Function.update_of_ne he] at hv
      exact h.only key' hv
  files rel f hrel hf := by
    by_cases he : rel = key.splitOn sep
    · subst he
      exact ⟨hsize f (hat.symm.trans hf), key, hk, rfl⟩
    · rw [hseen _ (fun hq => he (List.append_cancel_left hq)) (.inr ⟨rel, hrel, rfl⟩)] at hf
      exact h.files rel f hrel hf
  dirs rel hrel hne hdir := by
    rcases hdirs rel hrel hdir with hdir | hpre
    · exact h.dirs rel hrel hne hdir
    · exact ⟨key, hk, hpre⟩
  above q hq := by
    rw [hseen q (ne_append_of_isPrefix hq (List.splitOn_ne_nil sep key)) (.inl hq)]
    exact h.above q hq
  times i hi := by
    rcases hissued i hi with hi | ⟨size, hsize⟩
    · obtain ⟨t, size, hgen, ht⟩ := h.times i hi
      exact ⟨t, size, hgen, ht.trans hlast⟩
    · exact ⟨d'.last, size, hsize, le_rfl⟩
  last := h.last.trans hlast

section Steps
variable {data : Bytes} {cond : Condition} {env : CallEnv}

lemma Shows.toFile_made (h : Shows K s d shelf) (hk : K.holds key) (q : List Path) :
    FileTree.Stat.toFile (made d.tree (home s key) q) = d.tree.file q := by
  unfold made
  split
  · rename_i hq
    rw [h.way hk hq]
    rfl
  · rfl

lemma ne_temp_of_seen {q : List Path} (key : Path) (random : List (Fin 10))
    (hq : q <+: parts s.dir ∨ ∃ rel, Reached rel ∧ q = parts s.dir ++ rel) :
    q ≠ home s key ++ [tempName random] := by
  rw [home, List.append_assoc]
  rcases hq with hq | ⟨rel, hrel, rfl⟩
  · exact ne_append_of_isPrefix hq (by simp)
  · exact ne_temp_of_reached hrel random

lemma dir_of_made {rel : List Path}
    (h : made d.tree (home s key) (parts s.dir ++ rel) = some .dir) :
    d.tree.stat (parts s.dir ++ rel) = some .dir ∨ rel <+: (key.splitOn sep).dropLast := by
  unfold made at h
  split at h
  · rename_i hq
    exact .inr ((List.prefix_append_right_inj _).mp hq)
  · exact .inl h

/-- A `Put` that is refused may still make directories and give a time. -/
lemma Shows.refused (h : Shows K s d shelf) (hk : K.holds key) {random : List (Fin 10)}
    {tree' : Tree Path File} {last' : ℤ} (hlast : d.last ≤ last')
    (hstat : ∀ q, q ≠ home s key ++ [tempName random] →
      tree'.stat q = made d.tree (home s key) q) : Shows K s ⟨tree', last'⟩ shelf := by
  have hfile : ∀ q, q <+: parts s.dir ∨ (∃ rel, Reached rel ∧ q = parts s.dir ++ rel) →
      tree'.file q = d.tree.file q := by
    intro q hq
    rw [Tree.file, hstat q (ne_temp_of_seen key random hq), h.toFile_made hk]
  refine h.next hk (v := d.tree.file (parts s.dir ++ key.splitOn sep)) (fun q _ hq => hfile q hq)
    (hfile _ (.inr ⟨_, K.reached hk, rfl⟩)) (fun rel hrel hdir => ?_) (fun f hf => ?_) ?_
    (fun i hi => .inl hi) hlast
  · rw [hstat _ (ne_temp_of_seen key random (.inr ⟨rel, hrel, rfl⟩))] at hdir
    exact dir_of_made hdir
  · exact (h.files _ f (K.reached hk) hf).1
  · rw [← h.shown key hk, Function.update_eq_self]

lemma Shows.written (h : Shows K s d shelf) (hs : shelf.Wf) (hk : K.holds key)
    (hdata : data.length < 2 ^ 63) {random : List (Fin 10)} {tree' : Tree Path File} {t : ℤ}
    (hlast : d.last < t) (hstat : ∀ q, q ≠ home s key ++ [tempName random] →
      tree'.stat q = Function.update (made d.tree (home s key)) (home s key ++ [lastPart key])
        (some (.file ⟨data, t⟩)) q) :
    Shows K s ⟨tree', t⟩ ⟨shelf.cells.put key data,
      shelf.issued ++ [(key, localGeneration t data.length)]⟩ := by
  rw [home_lastPart] at hstat
  refine h.next hk (v := some ⟨data, t⟩) (fun q hne hq => ?_) ?_ (fun rel hrel hdir => ?_)
    (fun f hf => ?_) (hs.version_put ..) (fun i hi => ?_) hlast.le
  · rw [Tree.file, hstat q (ne_temp_of_seen key random hq), Function.update_of_ne hne,
      h.toFile_made hk]
  · rw [Tree.file_eq_some, hstat _ (ne_temp_of_seen key random (.inr ⟨_, K.reached hk, rfl⟩)),
      Function.update_self]
  · rw [hstat _ (ne_temp_of_seen key random (.inr ⟨rel, hrel, rfl⟩))] at hdir
    by_cases he : parts s.dir ++ rel = parts s.dir ++ key.splitOn sep
    · rw [he, Function.update_self] at hdir
      cases hdir
    · rw [Function.update_of_ne he] at hdir
      exact dir_of_made hdir
  · cases hf
    exact hdata
  · rcases List.mem_append.mp hi with hi | hi
    · exact .inl hi
    · rw [List.mem_singleton.mp hi]
      exact .inr ⟨data.length, rfl⟩

/-- The next time is later than all that were given. -/
lemma Shows.fresh (h : Shows K s d shelf) {t : ℤ} (ht : d.last < t) (size : ℕ) :
    (key, localGeneration t size) ∉ shelf.issued := by
  intro hmem
  obtain ⟨t', size', hgen, ht'⟩ := h.times _ hmem
  rw [(localGeneration_injective hgen).1] at ht
  omega

lemma Shows.put_step (h : Shows K s d shelf) (hs : shelf.Wf) (hk : K.holds key)
    (hmodest : (StoreRequest.put key data cond).Modest)
    (htemp : TempFree s d env.random (.put key data cond)) (hrun : env.stopped = false)
    (hnow : env.now ≤ maxInt64) (hlast : d.last < maxInt64) :
    ∃ shelf', shelf.Step localCanon (.put key data cond) (s.answer d env (.put key data cond)).1
      shelf' ∧ Shows K s (s.answer d env (.put key data cond)).2 shelf' := by
  obtain ⟨hdata, hkind⟩ := hmodest
  have hkey := K.plain key hk
  rw [Store.answer]
  by_cases hbad : cond.GenerationMatch ≠ [] ∧ validLocalGeneration cond.GenerationMatch = false
  · have habs : cond.Absent = false := by
      rw [← Bool.not_eq_true]
      exact fun habs => hbad.1 (hkind habs)
    have hput : s.Put d key data cond env =
        (.error (.malformedGeneration key cond.GenerationMatch), d) := by
      simp only [Store.Put, hkey.path s, if_pos hbad]
    rw [hput]
    exact ⟨shelf, .malformed key data cond habs hbad.1 (by simp [localCanon, hbad.2]), h⟩
  · have hknown : cond.GenerationMatch ≠ [] → validLocalGeneration cond.GenerationMatch = true :=
      fun hne => by simpa using fun hno => hbad ⟨hne, hno⟩
    have hcanon : cond.Absent = false → cond.GenerationMatch ≠ [] →
        localCanon cond.GenerationMatch = some cond.GenerationMatch := fun _ hne =>
      if_pos (hknown hne)
    have hclear : Clear d.tree (home s key) (lastPart key) (tempName env.random) :=
      h.clear hk (by rwa [home, List.append_assoc])
    have hends := put_ends data hkey hclear hknown hlast hnow hrun
      fun f hf => h.modTime_le hs hk hf
    have hgen : (d.tree.file (parts s.dir ++ key.splitOn sep)).map File.generation =
        (shelf.version key).map Version.generation := by
      rw [h.shown key hk, Option.map_map]
      rfl
    rw [hgen] at hends
    generalize s.Put d key data cond env = r at hends
    cases hends with
    | written ok t later bound tree' stat =>
      exact ⟨_, hs.accepted_step data hcanon ok (h.last.trans later.le) bound hdata (h.fresh later _),
        h.written hs hk hdata later stat⟩
    | refused no last' later tree' stat =>
      exact ⟨shelf, hs.refused_step data hcanon no, h.refused hk later stat⟩

end Steps

end Shown

section Demo

instance (s : Store) (d : Disk) (random : List (Fin 10)) : DecidablePred (TempFree s d random)
  | .put key _ _ => inferInstanceAs (Decidable (d.tree.stat
      (parts s.dir ++ ((key.splitOn sep).dropLast ++ [tempName random])) = none))
  | .stat _ | .get _ | .readRange _ _ _ | .exists _ | .delete _ | .list _ _ _ =>
    inferInstanceAs (Decidable True)

-- The second of two swaps that ask for the same generation leaves its temporary file behind.
def catalogCalls : List (StoreRequest × CallEnv) :=
  [(.put Naming.StorageKey.catalog.encode [1] ⟨true, []⟩, ⟨[Fin.last 9], 5, 0, 0, false, true⟩),
   (.put Naming.StorageKey.catalog.encode [2, 3] ⟨false, ascii "5-1"⟩,
     ⟨[Fin.last 9], 4, 0, 0, false, true⟩),
   (.put Naming.StorageKey.catalog.encode [4] ⟨false, ascii "5-1"⟩, ⟨[Fin.last 9], 9, 0, 0, false, false⟩),
   (.list [] [] 0, {})]

end Demo

end CloudyNeigh.LocalDisk
