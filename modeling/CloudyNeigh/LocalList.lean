import CloudyNeigh.OpenStore

/-!
# Listing a local store

`localStore.List` walks the directory of the store, leaves out hidden names, sorts
and clips. After any calls of `Put` and `Delete` on plain keys it returns what
`memStore.List` returns for the calls that succeeded, unless the directory itself
has a hidden name or a file stands above it.
-/
namespace CloudyNeigh.LocalDisk
open RecordIO SlashPath ObjectStore Listing Transition
open FileTree (Dir Tree Node)
open LocalStore (Condition File)
open LogStream (ascii pathBase)

def hidden (name : Path) : Bool := name.head? == some dot

/-- The directories that the walk keeps out of. -/
def skipped (name : Path) : Bool := decide (name ≠ [dot]) && hidden name

/-- The callback of `WalkDir`, at an entry of that name and path below the root. The
second result is `SkipDir`. -/
def visit (pfx startAfter : Bytes) (objs : List Object) (name : Path) (rel : List Path) :
    Node Path File → List Object × Bool
  | .dir _ => (objs, skipped name)
  | .file f =>
    if hidden name then (objs, false)
    else
      let k := relative rel
      if Selected pfx startAfter k then (objs ++ [object k f], false) else (objs, false)

/-- `WalkDir` visits the root under its own name, and a root that is missing is an
empty one. -/
def Store.List (s : Store) (d : Disk) (pfx startAfter : Bytes) (limit : ℤ) :
    Except StoreErr (List Object) :=
  match d.tree.top.get (parts s.dir) with
  | none =>
    match missing d.tree (parts s.dir) s.dir with
    | .notFound _ => .ok []
    | e => .error e
  | some root =>
    let r := visit pfx startAfter [] (pathBase s.dir) [] root
    let objs := match root, r.2 with
      | .dir entries, false =>
        entries.walk (fun objs rel => visit pfx startAfter objs (rel.getLastD []) rel) [] r.1
      | _, _ => r.1
    .ok (clip limit (objs.insertionSort fun a b => a.Key ≤ b.Key))

inductive Action
  | put (key data : Path) (cond : Condition) (env : CallEnv)
  | delete (key : Path) (env : CallEnv)

def Action.key : Action → Path
  | .put key _ _ _ => key
  | .delete key _ => key

def Store.act (s : Store) (d : Disk) : Action → Option Call × Disk
  | .put key data cond env =>
    match s.Put d key data cond env with
    | (.ok _, d') => (some (.put key data), d')
    | (.error _, d') => (none, d')
  | .delete key env =>
    match s.Delete d key env with
    | (.ok _, d') => (some (.delete key), d')
    | (.error _, d') => (none, d')

def Store.machine (s : Store) (d₀ : Disk) : Machine (Recorded Disk Call) Action := recorded d₀ s.act

section Plain
variable {key : Path} {cs : List Path}

/-- Every component of the key is there and does not start with a dot. -/
def PlainKey (key : Path) : Prop := ∀ c ∈ key.splitOn sep, c ≠ [] ∧ hidden c = false

instance (key : Path) : Decidable (PlainKey key) := inferInstanceAs (Decidable (∀ c ∈ _, _))

/-- A component that neither cleaning nor the walk drops. -/
abbrev Visible (c : Path) : Prop := Ordinary c ∧ hidden c = false

/-- The components of a plain key. -/
def Plain (cs : List Path) : Prop := cs ≠ [] ∧ ∀ c ∈ cs, Visible c

instance (cs : List Path) : Decidable (Plain cs) := inferInstanceAs (Decidable (_ ∧ ∀ c ∈ _, _))

lemma Plain.ordinary (h : Plain cs) : ∀ c ∈ cs, Ordinary c := fun c hc => (h.2 c hc).1

lemma skipped_eq_false_of_visible {c : Path} (h : hidden c = false) : skipped c = false := by
  simp [skipped, h]

lemma Plain.unskipped (h : Plain cs) : ∀ c ∈ cs, skipped c = false :=
  fun c hc => skipped_eq_false_of_visible (h.2 c hc).2

lemma PlainKey.plain (h : PlainKey key) : Plain (key.splitOn sep) := by
  refine ⟨List.splitOn_ne_nil sep key, fun c hc => ?_⟩
  obtain ⟨hne, hvis⟩ := h c hc
  refine ⟨⟨hne, ?_, ?_, sep_not_mem_splitOn key c hc⟩, hvis⟩
  · rintro rfl
    exact absurd hvis (by decide)
  · rintro rfl
    exact absurd hvis (by decide)

lemma relative_splitOn (key : Path) : relative (key.splitOn sep) = key := by
  rw [relative, if_neg (List.splitOn_ne_nil sep key)]
  exact List.intercalate_splitOn sep

lemma Plain.splitOn_relative (h : Plain cs) : (relative cs).splitOn sep = cs := by
  rw [relative, if_neg h.1]
  exact splitOn_components h.1 h.ordinary

lemma Plain.plainKey (h : Plain cs) : PlainKey (relative cs) := by
  intro c hc
  rw [h.splitOn_relative] at hc
  exact ⟨(h.ordinary c hc).ne_nil, (h.2 c hc).2⟩

lemma PlainKey.path (h : PlainKey key) (s : Store) :
    s.path key = .ok (absolute (parts s.dir ++ key.splitOn sep)) := by
  have hpath := s.path_components h.plain.1 h.plain.ordinary
  rwa [List.intercalate_splitOn sep] at hpath

lemma tempName_skipped (random : List (Fin 10)) : skipped (tempName random) = true := by
  simp [skipped, hidden, tempName, ascii, dot]

end Plain

section Held
variable {s : Store} {d₀ d d' : Disk} {calls : Calls} {key : Path}

/-- No directory on the way is one that the walk keeps out of. -/
def Reached (rel : List Path) : Prop := ∀ c ∈ rel, skipped c = false

/-- The files that the walk reaches are those that the successful calls stored, and
nothing at or above the root is changed. -/
structure Holds (s : Store) (d₀ d : Disk) (calls : Calls) : Prop where
  files : ∀ rel, Reached rel → (d.tree.file (parts s.dir ++ rel)).map File.data =
    if Plain rel then stored calls (relative rel) else none
  plain : ∀ key, stored calls key ≠ none → PlainKey key
  above : ∀ q, q <+: parts s.dir → d.tree.file q = d₀.tree.file q

lemma Holds.init (h : ∀ rel, d₀.tree.file (parts s.dir ++ rel) = none) : Holds s d₀ d₀ [] where
  files rel _ := by simp [h rel, stored]
  plain key hkey := absurd rfl hkey
  above _ _ := rfl

lemma Holds.unchanged (h : Holds s d₀ d calls)
    (hfile : ∀ rel, Reached rel →
      d'.tree.file (parts s.dir ++ rel) = d.tree.file (parts s.dir ++ rel))
    (habove : ∀ q, q <+: parts s.dir → d'.tree.file q = d.tree.file q) : Holds s d₀ d' calls where
  files rel hrel := by rw [hfile rel hrel, h.files rel hrel]
  plain := h.plain
  above q hq := by rw [habove q hq, h.above q hq]

/-- One successful call, seen as a change at one key. -/
lemma Holds.call (h : Holds s d₀ d calls) (hkey : PlainKey key) {c : Call} {x : Option Bytes}
    (hc : ∀ held, c.apply held = Function.update held key x)
    (hfile : ∀ rel, Reached rel → rel ≠ key.splitOn sep →
      d'.tree.file (parts s.dir ++ rel) = d.tree.file (parts s.dir ++ rel))
    (hat : (d'.tree.file (parts s.dir ++ key.splitOn sep)).map File.data = x)
    (habove : ∀ q, q <+: parts s.dir → d'.tree.file q = d.tree.file q) :
    Holds s d₀ d' (calls ++ [c]) where
  files rel hrel := by
    rw [stored_append, hc]
    by_cases he : rel = key.splitOn sep
    · rw [he, hat, if_pos hkey.plain, relative_splitOn, Function.update_self]
    · rw [hfile rel hrel he, h.files rel hrel]
      by_cases hplain : Plain rel
      · have hne : relative rel ≠ key := by
          rintro rfl
          exact he hplain.splitOn_relative.symm
        rw [Function.update_of_ne hne]
      · rw [if_neg hplain, if_neg hplain]
  plain k hk := by
    by_cases he : k = key
    · exact he ▸ hkey
    · rw [stored_append, hc, Function.update_of_ne he] at hk
      exact h.plain k hk
  above q hq := by rw [habove q hq, h.above q hq]

lemma ne_append_of_isPrefix {q R cs : List Path} (hq : q <+: R) (hcs : cs ≠ []) : q ≠ R ++ cs := by
  rintro rfl
  have hlen := hq.length_le
  have hpos := List.length_pos_of_ne_nil hcs
  rw [List.length_append] at hlen
  omega

lemma ne_temp_of_reached {R rel cs : List Path} (hrel : Reached rel) (random : List (Fin 10)) :
    R ++ rel ≠ R ++ (cs ++ [tempName random]) := by
  intro he
  have hmem : tempName random ∈ rel := by simp [List.append_cancel_left he]
  exact absurd (hrel _ hmem) (by simp [tempName_skipped])

lemma Holds.put (h : Holds s d₀ d calls) (hkey : PlainKey key) (data : Path) (cond : Condition)
    (env : CallEnv) :
    Holds s d₀ (s.act d (.put key data cond env)).2
      (calls ++ (s.act d (.put key data cond env)).1.toList) := by
  have hpl := hkey.plain
  have heff : PutEffect d.tree (s.Put d key data cond env).2.tree (parts s.dir ++ key.splitOn sep)
      (parts s.dir ++ ((key.splitOn sep).dropLast ++ [tempName env.random])) data
      (s.Put d key data cond env).1 := by
    have hput := @put_effect data env s key _ d cond (hkey.path s)
    rwa [s.tempPath_components hpl.1 hpl.ordinary,
      parts_absolute (s.ordinary_append (temp_ordinary hpl.ordinary env.random)),
      parts_absolute (s.ordinary_append hpl.ordinary)] at hput
  have hother : ∀ rel, Reached rel → rel ≠ key.splitOn sep →
      (s.Put d key data cond env).2.tree.file (parts s.dir ++ rel) =
        d.tree.file (parts s.dir ++ rel) := fun rel hrel hne =>
    heff.other _ (ne_temp_of_reached hrel env.random) fun he => hne (List.append_cancel_left he)
  have habove : ∀ q, q <+: parts s.dir →
      (s.Put d key data cond env).2.tree.file q = d.tree.file q := fun q hq =>
    heff.other q (ne_append_of_isPrefix hq (by simp)) (ne_append_of_isPrefix hq hpl.1)
  have htmp : parts s.dir ++ ((key.splitOn sep).dropLast ++ [tempName env.random]) ≠
      parts s.dir ++ key.splitOn sep := (ne_temp_of_reached hpl.unskipped env.random).symm
  simp only [Store.act]
  cases hr : s.Put d key data cond env with
  | mk r d' =>
    rw [hr] at heff hother habove
    cases r with
    | ok gen =>
      obtain ⟨t, ht⟩ := heff.written htmp ⟨gen, rfl⟩
      exact h.call hkey (fun _ => rfl) hother (by rw [ht]; rfl) habove
    | error e =>
      rw [Option.toList_none, List.append_nil]
      refine h.unchanged (fun rel hrel => ?_) habove
      by_cases he : rel = key.splitOn sep
      · rw [he]
        exact heff.kept htmp ⟨e, rfl⟩
      · exact hother rel hrel he

lemma Holds.delete (h : Holds s d₀ d calls) (hkey : PlainKey key) (env : CallEnv) :
    Holds s d₀ (s.act d (.delete key env)).2 (calls ++ (s.act d (.delete key env)).1.toList) := by
  have hpl := hkey.plain
  simp only [Store.act]
  rcases delete_effect (hkey.path s) d env with ⟨hok, hfile⟩ | ⟨e, he⟩
  · rw [parts_absolute (s.ordinary_append hpl.ordinary)] at hfile
    cases hr : s.Delete d key env with
    | mk r d' =>
      rw [hr] at hok hfile
      cases hok
      refine h.call hkey (x := none) (fun _ => rfl) (fun rel _ hne => ?_) ?_ fun q hq => ?_
      · rw [hfile, Function.update_of_ne fun he => hne (List.append_cancel_left he)]
      · rw [hfile, Function.update_self]
        rfl
      · rw [hfile, Function.update_of_ne (ne_append_of_isPrefix hq hpl.1)]
  · simpa [he] using h

/-- After any calls on plain keys, failed ones among them. -/
theorem Holds.run (hempty : ∀ rel, d₀.tree.file (parts s.dir ++ rel) = none)
    {t : Recorded Disk Call} (ht : (s.machine d₀).Run (fun _ a => PlainKey a.key) ⟨d₀, []⟩ t) :
    Holds s d₀ t.state t.reports := by
  refine Recorded.invariant (P := Holds s d₀) (Holds.init hempty) ?_ ht
  intro d calls a hd hkey
  cases a with
  | put key data cond env => exact hd.put hkey data cond env
  | delete key env => exact hd.delete hkey env

end Held

section Walk
variable {s : Store} {d₀ d : Disk} {calls : Calls} {entries : Dir Path File}

/-- The files of the walk that are listed. -/
def shown (pfx startAfter : Bytes) (f : List Path × File) : Bool :=
  !hidden (f.1.getLastD []) && decide (Selected pfx startAfter (relative f.1))

def objectsBelow (entries : Dir Path File) (pfx startAfter : Bytes) : List Object :=
  ((entries.files skipped).filter (shown pfx startAfter)).map fun f => object (relative f.1) f.2

lemma foldl_append_ite {α β : Type*} (p : α → Bool) (g : α → β) (l : List α) (acc : List β) :
    l.foldl (fun acc x => if p x then acc ++ [g x] else acc) acc = acc ++ (l.filter p).map g := by
  induction l generalizing acc with
  | nil => simp
  | cons x l ih =>
    rw [List.foldl_cons, ih, List.filter_cons]
    split <;> simp

lemma walk_objects (entries : Dir Path File) (pfx startAfter : Bytes) :
    entries.walk (fun objs rel => visit pfx startAfter objs (rel.getLastD []) rel) [] [] =
      objectsBelow entries pfx startAfter := by
  let visitFile (objs : List Object) (rel : List Path) (f : File) : List Object :=
    if shown pfx startAfter (rel, f) then objs ++ [object (relative rel) f] else objs
  rw [@FileTree.Dir.walk_eq_foldl _ _ _ _ skipped visitFile]
  · exact foldl_append_ite (shown pfx startAfter) (fun f => object (relative f.1) f.2) _ []
  · intro objs here x e
    simp [visit]
  · intro objs here x f
    by_cases hh : hidden x = true
    · simp [visitFile, visit, shown, hh]
    · by_cases hs : Selected pfx startAfter (relative (here ++ [x])) <;>
        simp [visitFile, visit, shown, hh, hs]

/-- The name under which the walk visits the root is not `.`. -/
lemma Store.base_ne_dot (s : Store) : pathBase s.dir ≠ [dot] := by
  obtain ⟨A, hA, he⟩ := s.rooted
  rw [he]
  rcases List.eq_nil_or_concat A with rfl | ⟨A', c, rfl⟩
  · decide
  · rw [List.concat_eq_append] at hA ⊢
    have hc : Ordinary c := hA c (by simp)
    rw [absolute_concat]
    have hbase := LogStream.pathBase_append (if A' = [] then [] else absolute A')
      hc.ne_nil hc.no_sep
    exact fun hdot => hc.ne_dot (hbase.symm.trans hdot)

lemma missing_eq (tree : Tree Path File) (p : List Path) (key : Path) :
    (missing tree p key = .system ∧ ∃ q, q <+: p ∧ tree.file q ≠ none) ∨
    missing tree p key = .notFound key ∧ ∀ q, q <+: p → q ≠ p → tree.file q = none := by
  unfold missing
  by_cases h : p.dropLast.inits.any (fun q => (tree.file q).isSome) = true
  · obtain ⟨q, hq, hsome⟩ := List.any_eq_true.mp h
    have hqp : q <+: p := ((List.mem_inits q _).mp hq).trans p.dropLast_prefix
    exact .inl ⟨if_pos h, q, hqp, Option.isSome_iff_ne_none.mp hsome⟩
  · refine .inr ⟨if_neg h, ?_⟩
    rintro q ⟨r, rfl⟩ hne
    have hr : r ≠ [] := fun hr => hne (by simp [hr])
    have hq : q ∈ (q ++ r).dropLast.inits := by
      rw [List.mem_inits, List.dropLast_append_of_ne_nil hr]
      exact List.prefix_append q _
    by_contra hsome
    exact h (List.any_eq_true.mpr ⟨q, hq, Option.isSome_iff_ne_none.mpr hsome⟩)

/-- What comes of a listing: an error if a file is above the root, nothing if the root
is not there or hidden, and otherwise the files that the walk shows. -/
lemma Store.list_cases (hroot : d.tree.file (parts s.dir) = none) (pfx startAfter : Bytes)
    (limit : ℤ) :
    ((∃ e, s.List d pfx startAfter limit = .error e) ∧
      ∃ q, q <+: parts s.dir ∧ d.tree.file q ≠ none) ∨
    (∀ q, q <+: parts s.dir → d.tree.file q = none) ∧
      (s.List d pfx startAfter limit = .ok [] ∧
        ((∀ rel, d.tree.file (parts s.dir ++ rel) = none) ∨ hidden (pathBase s.dir) = true) ∨
      hidden (pathBase s.dir) = false ∧ ∃ entries,
        d.tree.top.get (parts s.dir) = some (.dir entries) ∧
        s.List d pfx startAfter limit = .ok (clip limit
          ((objectsBelow entries pfx startAfter).insertionSort fun a b => a.Key ≤ b.Key))) := by
  cases hget : d.tree.top.get (parts s.dir) with
  | none =>
    have hstat : d.tree.stat (parts s.dir) = none := by
      simp [Tree.stat, FileTree.Dir.stat, hget]
    rcases missing_eq d.tree (parts s.dir) s.dir with ⟨hmiss, hfile⟩ | ⟨hmiss, hfile⟩
    · exact .inl ⟨⟨.system, by simp [Store.List, hget, hmiss]⟩, hfile⟩
    · refine .inr ⟨fun q hq => ?_, .inl ⟨by simp [Store.List, hget, hmiss], .inl fun rel => ?_⟩⟩
      · by_cases he : q = parts s.dir
        · rw [he, hroot]
        · exact hfile q hq he
      · by_cases hrel : rel = []
        · rw [hrel, List.append_nil, hroot]
        · have hne : d.tree.stat (parts s.dir) ≠ some .dir := by simp [hstat]
          simp [Tree.file, Tree.stat_below hne rel hrel, FileTree.Stat.toFile]
  | some root =>
    have hstat : d.tree.stat (parts s.dir) = some root.stat := by
      simp [Tree.stat, FileTree.Dir.stat, hget]
    refine .inr ⟨?_, ?_⟩
    · rintro q ⟨r, hr⟩
      by_cases hnil : r = []
      · rw [← hroot, ← hr, hnil, List.append_nil]
      · exact Tree.file_of_below hnil (by simp [hr, hstat])
    · cases root with
      | file f => simp [Tree.file, hstat, Node.stat, FileTree.Stat.toFile] at hroot
      | dir entries =>
        have hskip : skipped (pathBase s.dir) = hidden (pathBase s.dir) := by
          simp [skipped, s.base_ne_dot]
        cases hh : hidden (pathBase s.dir) with
        | true =>
          refine .inl ⟨?_, .inr rfl⟩
          simp [Store.List, hget, visit, hskip, hh, clip]
        | false =>
          refine .inr ⟨rfl, entries, rfl, ?_⟩
          simp only [Store.List, hget, visit, hskip, hh, walk_objects]

lemma getLastD_of_ne_nil {α : Type*} {l : List α} (h : l ≠ []) (a : α) :
    l.getLastD a = l.getLast h := by
  rw [List.getLastD_eq_getLast?, List.getLast?_eq_some_getLast h]
  rfl

/-- The walk comes to the files with plain paths, if it reaches no others. -/
lemma mem_files_iff
    (hplain : ∀ rel f, Reached rel → d.tree.file (parts s.dir ++ rel) = some f → Plain rel)
    (hget : d.tree.top.get (parts s.dir) = some (.dir entries)) {rel : List Path} {f : File} :
    (rel, f) ∈ entries.files skipped ∧ hidden (rel.getLastD []) = false ↔
      Plain rel ∧ d.tree.file (parts s.dir ++ rel) = some f := by
  have hdist : entries.Distinct := d.tree.distinct.get hget
  have hstat : d.tree.stat (parts s.dir ++ rel) = entries.stat rel := by
    rw [Tree.stat, FileTree.Dir.stat, FileTree.Dir.get_append hget]
    rfl
  rw [FileTree.Dir.mem_files hdist, ← hstat, FileTree.Tree.file_eq_some]
  constructor
  · rintro ⟨⟨hfile, hdirs⟩, hlast⟩
    have hne : rel ≠ [] := by
      rintro rfl
      rw [hstat] at hfile
      exact FileTree.Dir.stat_ne_file_nil hfile
    have hreach : Reached rel := by
      intro c hc
      rw [← List.dropLast_append_getLast hne] at hc
      rcases List.mem_append.mp hc with hc | hc
      · exact hdirs c hc
      · rw [List.mem_singleton.mp hc, ← getLastD_of_ne_nil hne []]
        exact skipped_eq_false_of_visible hlast
    exact ⟨hplain rel f hreach (FileTree.Tree.file_eq_some.mpr hfile), hfile⟩
  · rintro ⟨hplain, hfile⟩
    refine ⟨⟨hfile, fun c hc => hplain.unskipped c (List.mem_of_mem_dropLast hc)⟩, ?_⟩
    rw [getLastD_of_ne_nil hplain.1]
    exact (hplain.2 _ (List.getLast_mem hplain.1)).2

/-- A listing of a root that is there and not hidden. -/
theorem files_isListing
    (hplain : ∀ rel f, Reached rel → d.tree.file (parts s.dir ++ rel) = some f → Plain rel)
    (hget : d.tree.top.get (parts s.dir) = some (.dir entries)) (pfx startAfter : Bytes)
    (limit : ℤ) :
    IsListing (fun key => if PlainKey key then
        (d.tree.file (parts s.dir ++ key.splitOn sep)).map (object key) else none)
      (Selected pfx startAfter) limit ((clip limit ((objectsBelow entries pfx startAfter).insertionSort
        fun a b => a.Key ≤ b.Key)).map fun o => (o.Key, o)) := by
  let entry : Object → Bytes × Object := fun o => (o.Key, o)
  let files := (entries.files skipped).filter (shown pfx startAfter)
  have hfiles : ∀ rel f, (rel, f) ∈ files ↔
      (Plain rel ∧ d.tree.file (parts s.dir ++ rel) = some f) ∧
        Selected pfx startAfter (relative rel) := by
    intro rel f
    rw [← mem_files_iff hplain hget, List.mem_filter, and_assoc]
    simp [shown]
  have hkeys : ((objectsBelow entries pfx startAfter).map entry).map Prod.fst =
      (files.map Prod.fst).map relative := by
    simp [objectsBelow, files, entry, object]
  refine ⟨((objectsBelow entries pfx startAfter).map entry).insertionSort fun a b => a.1 ≤ b.1,
    enumerates_sort ?_ ?_, ?_⟩
  · -- Different paths of plain components give different keys.
    rw [hkeys]
    have hnodup : (files.map Prod.fst).Nodup :=
      (FileTree.Dir.nodup_files (d.tree.distinct.get hget)).sublist
        (List.filter_sublist.map Prod.fst)
    refine hnodup.map_on fun rel hrel rel' hrel' he => ?_
    obtain ⟨⟨_, f⟩, hf, rfl⟩ := List.mem_map.mp hrel
    obtain ⟨⟨_, f'⟩, hf', rfl⟩ := List.mem_map.mp hrel'
    have hplain := ((hfiles _ f).mp hf).1.1
    have hplain' := ((hfiles _ f').mp hf').1.1
    exact relative_injective hplain.ordinary hplain'.ordinary he
  · intro key o
    constructor
    · intro hmem
      obtain ⟨o', ho, he⟩ := List.mem_map.mp hmem
      obtain ⟨⟨rel, f⟩, hf, rfl⟩ := List.mem_map.mp ho
      obtain ⟨⟨hplain, hfile⟩, hsel⟩ := (hfiles rel f).mp hf
      cases he
      refine ⟨?_, hsel⟩
      change (if PlainKey (relative rel) then
        (d.tree.file (parts s.dir ++ (relative rel).splitOn sep)).map (object (relative rel))
          else none) = some (object (relative rel) f)
      rw [if_pos hplain.plainKey, hplain.splitOn_relative, hfile, Option.map_some]
    · rintro ⟨hheld, hsel⟩
      split at hheld
      · rename_i hkey
        obtain ⟨f, hf, rfl⟩ := Option.map_eq_some_iff.mp hheld
        have hin : (key.splitOn sep, f) ∈ files :=
          (hfiles _ f).mpr ⟨⟨hkey.plain, hf⟩, by rwa [relative_splitOn]⟩
        refine List.mem_map.mpr ⟨_, List.mem_map.mpr ⟨_, hin, rfl⟩, ?_⟩
        simp [entry, object, relative_splitOn]
      · cases hheld
  · rw [map_clip]
    congr 1
    exact List.map_insertionSort _ _ entry _ fun _ _ _ _ => Iff.rfl

theorem Holds.lists (h : Holds s d₀ d calls)
    (hget : d.tree.top.get (parts s.dir) = some (.dir entries)) (pfx startAfter : Bytes)
    (limit : ℤ) : Lists calls pfx startAfter limit (clip limit
      ((objectsBelow entries pfx startAfter).insertionSort fun a b => a.Key ≤ b.Key)) := by
  have hplain : ∀ rel f, Reached rel → d.tree.file (parts s.dir ++ rel) = some f → Plain rel := by
    intro rel f hreach hfile
    by_contra hplain
    have hnone := h.files rel hreach
    rw [hfile, if_neg hplain] at hnone
    cases hnone
  have hlist := (files_isListing hplain hget pfx startAfter limit).map fun _ o => o.Size
  have hheld : (fun key => (if PlainKey key then
      (d.tree.file (parts s.dir ++ key.splitOn sep)).map (object key) else none).map Object.Size) =
      fun key => (stored calls key).map List.length := by
    funext key
    by_cases hkey : PlainKey key
    · have hfile := h.files _ hkey.plain.unskipped
      rw [if_pos hkey.plain, relative_splitOn] at hfile
      rw [if_pos hkey, ← hfile, Option.map_map, Option.map_map]
      rfl
    · have hnone : stored calls key = none := by
        by_contra hne
        exact hkey (h.plain key hne)
      rw [if_neg hkey, hnone]
      rfl
  rw [List.map_map] at hlist
  rw [ObjectStore.Lists, ← hheld]
  exact hlist

end Walk

section Complete
variable {s : Store} {d₀ d : Disk} {calls : Calls}

/-- The listing that the store owes, which is also what `memStore.List` returns after
the same calls. -/
def Complete (calls : Calls) (pfx startAfter : Bytes) (limit : ℤ)
    (r : Except StoreErr (List Object)) : Prop :=
  ∃ objs, r = .ok objs ∧ Lists calls pfx startAfter limit objs ∧
    ∀ m, memMachine.Reachable m → m.reports = calls → ∀ R,
      objs.map (fun o => (o.Key, o.Size)) =
        (m.state.List R pfx startAfter limit).map fun o => (o.Key, o.Size)

lemma complete_ok {pfx startAfter : Bytes} {limit : ℤ} {objs : List Object} :
    Complete calls pfx startAfter limit (.ok objs) ↔ Lists calls pfx startAfter limit objs := by
  constructor
  · rintro ⟨_, hr, hl, -⟩
    cases hr
    exact hl
  · intro hl
    refine ⟨objs, rfl, hl, fun m hm hcalls R => ?_⟩
    have hmem := memMachine_holds hm
    rw [hcalls] at hmem
    exact hl.unique (memStore_lists hmem R pfx startAfter limit)

lemma lists_nil_iff {pfx startAfter : Bytes} {limit : ℤ} : Lists calls pfx startAfter limit [] ↔
    ∀ key, stored calls key ≠ none → ¬ Selected pfx startAfter key := by
  refine isListing_nil_iff.trans (forall_congr' fun key => ?_)
  rw [Ne, Option.map_eq_none_iff]

lemma Holds.stored_none (h : Holds s d₀ d calls)
    (hnone : ∀ rel, d.tree.file (parts s.dir ++ rel) = none) (key : Path) :
    stored calls key = none := by
  by_contra hne
  have hkey := h.plain key hne
  have hfile := h.files _ hkey.plain.unskipped
  rw [hnone, if_pos hkey.plain, relative_splitOn] at hfile
  exact hne hfile.symm

/-- Nothing is listed but what the calls stored. -/
lemma Holds.listed (h : Holds s d₀ d calls) {pfx startAfter : Bytes} {limit : ℤ}
    {objs : List Object} (hl : Lists calls pfx startAfter limit objs) {o : Object} (ho : o ∈ objs) :
    stored calls o.Key ≠ none ∧ ∀ random, tempName random ∉ o.Key.splitOn sep := by
  have hheld := hl.held_of_mem (List.mem_map.mpr ⟨o, ho, rfl⟩)
  have hne : stored calls o.Key ≠ none := by
    intro hnone
    simp [hnone] at hheld
  refine ⟨hne, fun random hmem => ?_⟩
  have hskip := (h.plain o.Key hne).plain.unskipped _ hmem
  simp [tempName_skipped] at hskip

/-- From a root without files, after any calls of `Put` and `Delete` on plain keys:
a listing is complete if no file is above the root and the name of the root does not
start with a dot, and only then or if there is nothing to list. It never shows a
temporary file. -/
theorem local_list_complete_iff (sys : System) (u : URL) {s : Store}
    (_hopen : Open sys u = .ok (.file s)) {d₀ : Disk}
    (hempty : ∀ rel, d₀.tree.file (parts s.dir ++ rel) = none) {t : Recorded Disk Call}
    (ht : (s.machine d₀).Run (fun _ a => PlainKey a.key) ⟨d₀, []⟩ t) (pfx startAfter : Bytes)
    (limit : ℤ) :
    (Complete t.reports pfx startAfter limit (s.List t.state pfx startAfter limit) ↔
      (∀ q, q <+: parts s.dir → d₀.tree.file q = none) ∧
      (hidden (pathBase s.dir) = false ∨
        ∀ key, stored t.reports key ≠ none → ¬ Selected pfx startAfter key)) ∧
    ∀ objs, s.List t.state pfx startAfter limit = .ok objs → ∀ o ∈ objs,
      stored t.reports o.Key ≠ none ∧ ∀ random, tempName random ∉ o.Key.splitOn sep := by
  have h := Holds.run hempty ht
  have habove : (∀ q, q <+: parts s.dir → d₀.tree.file q = none) ↔
      ∀ q, q <+: parts s.dir → t.state.tree.file q = none :=
    forall₂_congr fun q hq => by rw [h.above q hq]
  have hroot : t.state.tree.file (parts s.dir) = none := by
    rw [h.above _ (List.prefix_refl _)]
    simpa using hempty []
  rw [habove]
  rcases s.list_cases hroot pfx startAfter limit with
    ⟨⟨e, he⟩, q, hq, hfile⟩ | ⟨hno, ⟨hnil, hwhy⟩ | ⟨hvis, entries, hget, hlist⟩⟩
  · rw [he]
    refine ⟨⟨?_, fun hcond => absurd (hcond.1 q hq) hfile⟩, fun objs hobjs => by cases hobjs⟩
    rintro ⟨objs, hobjs, -⟩
    cases hobjs
  · rw [hnil, complete_ok, lists_nil_iff]
    refine ⟨⟨fun hsel => ⟨hno, .inr hsel⟩, ?_⟩, fun objs hobjs o ho => ?_⟩
    · rintro ⟨-, hvis | hsel⟩
      · intro key hkey
        rcases hwhy with hnone | hhid
        · exact absurd (h.stored_none hnone key) hkey
        · simp [hvis] at hhid
      · exact hsel
    · cases hobjs
      simp at ho
  · have hl := h.lists hget pfx startAfter limit
    rw [hlist, complete_ok]
    refine ⟨⟨fun _ => ⟨hno, .inl hvis⟩, fun _ => hl⟩, fun objs hobjs o ho => ?_⟩
    cases hobjs
    exact h.listed hl ho

-- No symbolic links.
def plainSystem : System := ⟨none, fun _ => none, fun _ => true, false⟩

def fileURL (path : Path) : URL := ⟨ascii "file", [], path, false⟩

def hiddenRoot : Store := ⟨ascii "/.d", [ascii ".d"], by decide, by decide⟩

-- The hidden root is an empty directory.
def emptyHiddenRoot : Disk := ⟨⟨.dir (ascii ".d") .nil .nil, rfl, trivial, trivial⟩, 0⟩

-- The first write dies after its temporary file is there.
def twoWrites : List Action :=
  [.put (ascii "a/b") [1] {} ⟨[7], 5, 0, 0, true, false⟩, .put (ascii "a.x") [2, 3] {} {}]

theorem local_list_complete_iff_two :
    Open plainSystem (fileURL (ascii "/data")) = .ok (.file dataRoot) ∧
    ∃ t, (dataRoot.machine emptyRoot).Run (fun _ a => PlainKey a.key) ⟨emptyRoot, []⟩ t ∧
      t.reports = [.put (ascii "a.x") [2, 3]] ∧
      Complete t.reports (ascii "a") [] 0 (dataRoot.List t.state (ascii "a") [] 0) := by
  have hopen : Open plainSystem (fileURL (ascii "/data")) = .ok (.file dataRoot) := by rfl
  have hempty : ∀ rel, emptyRoot.tree.file (parts dataRoot.dir ++ rel) = none := by
    intro rel
    cases rel <;> rfl
  have habove : ∀ q, q <+: parts dataRoot.dir → emptyRoot.tree.file q = none := by
    have hinits : ∀ q ∈ (parts dataRoot.dir).inits, emptyRoot.tree.file q = none := by decide
    exact fun q hq => hinits q ((List.mem_inits q _).mpr hq)
  obtain ⟨t, ht, hrt⟩ := Machine.exec_exists (dataRoot.machine emptyRoot)
    (fun _ a => PlainKey a.key) ⟨emptyRoot, []⟩ twoWrites
    (fun t => t.reports = [.put (ascii "a.x") [2, 3]]) (by decide +kernel)
  exact ⟨hopen, t, ht, hrt, (local_list_complete_iff plainSystem _ hopen hempty ht _ _ _).1.mpr
    ⟨habove, .inl (by decide)⟩⟩

/-- A key is stored below a hidden root, and the listing is empty. -/
theorem hidden_root_lists_nothing :
    Open plainSystem (fileURL (ascii "/.d")) = .ok (.file hiddenRoot) ∧
    ∃ t, (hiddenRoot.machine emptyHiddenRoot).Run (fun _ a => PlainKey a.key)
        ⟨emptyHiddenRoot, []⟩ t ∧
      t.reports = [.put (ascii "k") [1]] ∧
      hiddenRoot.Get t.state (ascii "k") = .ok ([1], ⟨ascii "k", ascii "1-1", 1⟩) ∧
      hiddenRoot.List t.state [] [] 0 = .ok [] ∧
      ¬ Complete t.reports [] [] 0 (hiddenRoot.List t.state [] [] 0) := by
  obtain ⟨t, ht, hrt, hget, hlist⟩ := Machine.exec_exists (hiddenRoot.machine emptyHiddenRoot)
    (fun _ a => PlainKey a.key) ⟨emptyHiddenRoot, []⟩ [.put (ascii "k") [1] {} {}]
    (fun t => t.reports = [.put (ascii "k") [1]] ∧
      hiddenRoot.Get t.state (ascii "k") = .ok ([1], ⟨ascii "k", ascii "1-1", 1⟩) ∧
      hiddenRoot.List t.state [] [] 0 = .ok []) (by decide +kernel)
  refine ⟨by rfl, t, ht, hrt, hget, hlist, ?_⟩
  rw [hlist, complete_ok, lists_nil_iff, hrt]
  exact fun hnone => hnone (ascii "k") (by decide) (by decide)

end Complete

end CloudyNeigh.LocalDisk
