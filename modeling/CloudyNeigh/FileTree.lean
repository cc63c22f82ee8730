import Mathlib.Data.List.Basic
import Mathlib.Data.List.Nodup
import Mathlib.Logic.Function.Basic

/-!
# Trees of files

A directory is the list of its entries in the order of their names. Operations go
by the names from the top down. What a tree holds is read off by `stat`, and every
operation but the making of directories changes `stat` at single paths.
-/
namespace CloudyNeigh.FileTree

inductive Dir (ν α : Type*) where
  | nil
  | file (name : ν) (a : α) (rest : Dir ν α)
  | dir (name : ν) (entries rest : Dir ν α)
  deriving DecidableEq, Repr

inductive Node (ν α : Type*) where
  | file (a : α)
  | dir (entries : Dir ν α)

inductive Stat (α : Type*) where
  | file (a : α)
  | dir
  deriving DecidableEq, Repr

variable {ν α : Type*} [DecidableEq ν]

section Entries

def Dir.find : Dir ν α → ν → Option (Node ν α)
  | .nil, _ => none
  | .file n a rest, x => if n = x then some (.file a) else rest.find x
  | .dir n e rest, x => if n = x then some (.dir e) else rest.find x

def Dir.erase : Dir ν α → ν → Dir ν α
  | .nil, _ => .nil
  | .file n a rest, x => if n = x then rest.erase x else .file n a (rest.erase x)
  | .dir n e rest, x => if n = x then rest.erase x else .dir n e (rest.erase x)

def Dir.cons (x : ν) (d : Dir ν α) : Node ν α → Dir ν α
  | .file a => .file x a d
  | .dir e => .dir x e d

/-- Names are distinct in every directory. -/
def Dir.Distinct : Dir ν α → Prop
  | .nil => True
  | .file n _ rest => rest.find n = none ∧ rest.Distinct
  | .dir n e rest => rest.find n = none ∧ e.Distinct ∧ rest.Distinct

def Node.Distinct : Node ν α → Prop
  | .file _ => True
  | .dir e => e.Distinct

variable {d : Dir ν α} {x : ν} {i : Node ν α}

lemma Dir.find_cons (x y : ν) (d : Dir ν α) (i : Node ν α) :
    (d.cons x i).find y = if x = y then some i else d.find y := by
  cases i <;> rfl

lemma Dir.find_erase (d : Dir ν α) (x y : ν) :
    (d.erase x).find y = if x = y then none else d.find y := by
  induction d with
  | nil => simp [erase, find]
  | file n a rest ih => grind [erase, find]
  | dir n e rest _ ih => grind [erase, find]

lemma Dir.Distinct.erase (h : d.Distinct) (x : ν) : (d.erase x).Distinct := by
  induction d with
  | nil => exact h
  | file n a rest ih =>
    obtain ⟨hn, hr⟩ := h
    unfold Dir.erase
    split
    · exact ih hr
    · exact ⟨by rw [find_erase, hn, ite_self], ih hr⟩
  | dir n e rest _ ih =>
    obtain ⟨hn, he, hr⟩ := h
    unfold Dir.erase
    split
    · exact ih hr
    · exact ⟨by rw [find_erase, hn, ite_self], he, ih hr⟩

lemma Dir.Distinct.cons (h : d.Distinct) (hx : d.find x = none) (hi : i.Distinct) :
    (d.cons x i).Distinct := by
  cases i with
  | file a => exact ⟨hx, h⟩
  | dir e => exact ⟨hx, hi, h⟩

lemma Dir.Distinct.find (h : d.Distinct) (hf : d.find x = some i) : i.Distinct := by
  induction d with
  | nil => cases hf
  | file n a rest ih =>
    unfold Dir.find at hf
    split at hf
    · cases hf
      trivial
    · exact ih h.2 hf
  | dir n e rest _ ih =>
    unfold Dir.find at hf
    split at hf
    · cases hf
      exact h.2.1
    · exact ih h.2.2 hf

variable [LT ν] [DecidableLT ν]

/-- A new entry, at its place in the order of the names. -/
def Dir.insert (x : ν) (i : Node ν α) : Dir ν α → Dir ν α
  | .nil => Dir.nil.cons x i
  | .file n a rest =>
    if x < n then (Dir.file n a rest).cons x i else .file n a (rest.insert x i)
  | .dir n e rest =>
    if x < n then (Dir.dir n e rest).cons x i else .dir n e (rest.insert x i)

def Dir.set (d : Dir ν α) (x : ν) : Option (Node ν α) → Dir ν α
  | none => d.erase x
  | some i => (d.erase x).insert x i

lemma Dir.find_insert (h : d.find x = none) (y : ν) :
    (d.insert x i).find y = if x = y then some i else d.find y := by
  induction d with
  | nil => simp [insert, find_cons]
  | file n a rest ih => grind [insert, find, find_cons]
  | dir n e rest _ ih => grind [insert, find, find_cons]

/-- Setting an entry changes that entry only. -/
lemma Dir.find_set (d : Dir ν α) (x y : ν) (i : Option (Node ν α)) :
    (d.set x i).find y = if x = y then i else d.find y := by
  cases i with
  | none => exact d.find_erase x y
  | some i =>
    have hx : (d.erase x).find x = none := by simp [find_erase]
    rw [set, find_insert hx, find_erase]
    split <;> rfl

lemma Dir.Distinct.insert (h : d.Distinct) (hx : d.find x = none) (hi : i.Distinct) :
    (d.insert x i).Distinct := by
  induction d with
  | nil => exact Distinct.cons h hx hi
  | file n a rest ih =>
    obtain ⟨hn, hr⟩ := h
    have hne : n ≠ x := by grind [Dir.find]
    have hxr : rest.find x = none := by grind [Dir.find]
    unfold Dir.insert
    split
    · exact Distinct.cons ⟨hn, hr⟩ hx hi
    · exact ⟨by rw [find_insert hxr, if_neg hne.symm, hn], ih hr hxr⟩
  | dir n e rest _ ih =>
    obtain ⟨hn, he, hr⟩ := h
    have hne : n ≠ x := by grind [Dir.find]
    have hxr : rest.find x = none := by grind [Dir.find]
    unfold Dir.insert
    split
    · exact Distinct.cons ⟨hn, he, hr⟩ hx hi
    · exact ⟨by rw [find_insert hxr, if_neg hne.symm, hn], he, ih hr hxr⟩

lemma Dir.Distinct.set (h : d.Distinct) (x : ν) {i : Option (Node ν α)}
    (hi : ∀ n ∈ i, n.Distinct) : (d.set x i).Distinct := by
  cases i with
  | none => exact h.erase x
  | some i => exact (h.erase x).insert (by simp [find_erase]) (hi i rfl)

end Entries

section Paths

def Dir.get : Dir ν α → List ν → Option (Node ν α)
  | d, [] => some (.dir d)
  | d, c :: cs =>
    match d.find c with
    | some (.dir e) => e.get cs
    | some (.file a) => if cs = [] then some (.file a) else none
    | none => none

def Node.stat : Node ν α → Stat α
  | .file a => .file a
  | .dir _ => .dir

def Dir.stat (d : Dir ν α) (p : List ν) : Option (Stat α) := (d.get p).map Node.stat

variable [LT ν] [DecidableLT ν]

/-- Sets the entry of a directory that is there. -/
def Dir.put : Dir ν α → List ν → ν → Option (Node ν α) → Option (Dir ν α)
  | d, [], x, i => some (d.set x i)
  | d, c :: cs, x, i =>
    match d.find c with
    | some (.dir e) => (e.put cs x i).map fun e' => d.set c (some (.dir e'))
    | _ => none

/-- Makes the directories on the way that are missing. -/
def Dir.mkdirAll : Dir ν α → List ν → Option (Dir ν α)
  | d, [] => some d
  | d, c :: cs =>
    match d.find c with
    | some (.dir e) => (e.mkdirAll cs).map fun e' => d.set c (some (.dir e'))
    | some (.file _) => none
    | none => (Dir.nil.mkdirAll cs).map fun e' => d.set c (some (.dir e'))

variable {d d' e : Dir ν α} {p q r : List ν} {x : ν} {i : Option (Node ν α)}

omit [LT ν] [DecidableLT ν] in
lemma Dir.get_append (h : d.get p = some (.dir e)) (r : List ν) : d.get (p ++ r) = e.get r := by
  induction p generalizing d with
  | nil =>
    cases h
    rfl
  | cons c p ih =>
    simp only [get, List.cons_append] at h ⊢
    split at h
    · exact ih h
    · split at h <;> cases h
    · cases h

omit [LT ν] [DecidableLT ν] in
lemma Dir.Distinct.get {n : Node ν α} (hd : d.Distinct) (h : d.get p = some n) : n.Distinct := by
  induction p generalizing d with
  | nil =>
    cases h
    exact hd
  | cons c p ih =>
    cases hc : Dir.find d c with
    | none => simp [Dir.get, hc] at h
    | some m =>
      have hm := hd.find hc
      cases m with
      | dir e => exact ih hm (by simpa [Dir.get, hc] using h)
      | file a =>
        by_cases hp : p = []
        · simp only [Dir.get, hc, hp, if_true, Option.some.injEq] at h
          exact h ▸ hm
        · simp [Dir.get, hc, hp] at h

omit [LT ν] [DecidableLT ν] in
/-- Nothing lies below a path that is not a directory. -/
lemma Dir.stat_append_of_ne_dir (h : d.stat p ≠ some .dir) (hr : r ≠ []) :
    d.stat (p ++ r) = none := by
  induction p generalizing d with
  | nil => exact absurd rfl h
  | cons c p ih =>
    simp only [stat, get, List.cons_append] at h ⊢
    cases hf : d.find c with
    | none => rfl
    | some n =>
      cases n with
      | file a => simp [hr]
      | dir e =>
        rw [hf] at h
        exact ih h

lemma Dir.get_put_under (h : d.put p x i = some d') (r : List ν) :
    d'.get (p ++ x :: r) = i.bind fun n =>
      match n with
      | .dir e => e.get r
      | .file a => if r = [] then some (.file a) else none := by
  induction p generalizing d d' with
  | nil =>
    cases h
    simp only [List.nil_append, get, find_set, if_pos]
    cases i with
    | none => rfl
    | some n => cases n <;> rfl
  | cons c p ih =>
    simp only [put] at h
    split at h
    · obtain ⟨e', he, rfl⟩ := Option.map_eq_some_iff.mp h
      simp only [List.cons_append, get, find_set, if_pos]
      exact ih he
    · cases h

/-- A path that does not go through the entry that was set. -/
lemma Dir.stat_put_other (h : d.put p x i = some d') (hq : ¬ p ++ [x] <+: q) :
    d'.stat q = d.stat q := by
  induction p generalizing d d' q with
  | nil =>
    cases h
    cases q with
    | nil => rfl
    | cons c q =>
      have hne : x ≠ c := fun he => hq (by simp [he])
      simp only [stat, get, find_set, if_neg hne]
  | cons c p ih =>
    simp only [put] at h
    split at h
    · rename_i e hf
      obtain ⟨e', he, rfl⟩ := Option.map_eq_some_iff.mp h
      cases q with
      | nil => rfl
      | cons y q =>
        by_cases hy : c = y
        · subst hy
          have hq' : ¬ p ++ [x] <+: q := fun hpre => hq (by simpa using hpre)
          simp only [stat, get, find_set, if_pos, hf]
          exact ih he hq'
        · simp only [stat, get, find_set, if_neg hy]
    · cases h

lemma Dir.Distinct.put (hd : d.Distinct) (hi : ∀ n ∈ i, n.Distinct)
    (h : d.put p x i = some d') : d'.Distinct := by
  induction p generalizing d d' with
  | nil =>
    cases h
    exact hd.set x hi
  | cons c p ih =>
    simp only [Dir.put] at h
    split at h
    · rename_i e hf
      obtain ⟨e', he, rfl⟩ := Option.map_eq_some_iff.mp h
      have hdist : e'.Distinct := ih (hd.find hf) he
      refine hd.set c fun n hn => ?_
      cases hn
      exact hdist
    · cases h

lemma Dir.Distinct.mkdirAll (hd : d.Distinct) (h : d.mkdirAll p = some d') : d'.Distinct := by
  induction p generalizing d d' with
  | nil =>
    cases h
    exact hd
  | cons c p ih =>
    -- the directory that is there, or an empty one
    have hsub : ∃ e : Dir ν α, e.Distinct ∧ ∃ e', e.mkdirAll p = some e' ∧
        d' = d.set c (some (.dir e')) := by
      simp only [Dir.mkdirAll] at h
      split at h
      · rename_i e hf
        obtain ⟨e', he, rfl⟩ := Option.map_eq_some_iff.mp h
        exact ⟨e, hd.find hf, e', he, rfl⟩
      · cases h
      · obtain ⟨e', he, rfl⟩ := Option.map_eq_some_iff.mp h
        exact ⟨.nil, trivial, e', he, rfl⟩
    obtain ⟨e, hed, e', he, rfl⟩ := hsub
    refine hd.set c fun n hn => ?_
    cases hn
    exact ih hed he

omit [LT ν] [DecidableLT ν] in
lemma Dir.stat_nil (hp : p ≠ []) : (Dir.nil : Dir ν α).stat p = none := by
  cases p with
  | nil => exact absurd rfl hp
  | cons c p => rfl

/-- Making directories adds directories on the way and nothing else. -/
lemma Dir.stat_mkdirAll (h : d.mkdirAll p = some d') (q : List ν) :
    d'.stat q = if q <+: p then some .dir else d.stat q := by
  induction p generalizing d d' q with
  | nil =>
    cases h
    cases q with
    | nil => rfl
    | cons y q => simp
  | cons c p ih =>
    cases q with
    | nil => simp [stat, get, Node.stat]
    | cons y q =>
      simp only [mkdirAll] at h
      split at h
      · rename_i e hf
        obtain ⟨e', he, rfl⟩ := Option.map_eq_some_iff.mp h
        by_cases hy : c = y
        · subst hy
          have hsub := ih he q
          simp only [stat, get, find_set, if_pos, hf] at hsub ⊢
          simpa using hsub
        · simp only [stat, get, find_set, if_neg hy]
          rw [if_neg fun hpre => hy (List.cons_prefix_cons.mp hpre).1.symm]
      · cases h
      · rename_i hf
        obtain ⟨e', he, rfl⟩ := Option.map_eq_some_iff.mp h
        by_cases hy : c = y
        · subst hy
          have hsub := ih he q
          have hnil : q <+: p ∨ (Dir.nil : Dir ν α).stat q = none := by
            by_cases hq : q = []
            · exact .inl (by simp [hq])
            · exact .inr (stat_nil hq)
          simp only [stat, get, find_set, if_pos, hf, Option.map_none] at hsub hnil ⊢
          rcases hnil with hpre | hnone
          · simpa [hpre] using hsub
          · rw [hnone] at hsub
            simpa using hsub
        · simp only [stat, get, find_set, if_neg hy]
          rw [if_neg fun hpre => hy (List.cons_prefix_cons.mp hpre).1.symm]

/-- No file is in the way. -/
lemma Dir.mkdirAll_ne_file (h : d.mkdirAll p = some d') (hq : q <+: p) (a : α) :
    d.stat q ≠ some (.file a) := by
  induction p generalizing d d' q with
  | nil =>
    rw [List.prefix_nil.mp hq]
    simp [stat, get, Node.stat]
  | cons c p ih =>
    cases q with
    | nil => simp [stat, get, Node.stat]
    | cons y q =>
      obtain ⟨rfl, hqp⟩ := List.cons_prefix_cons.mp hq
      cases hf : d.find y with
      | none => simp [stat, get, hf]
      | some n =>
        cases n with
        | file b => simp [mkdirAll, hf] at h
        | dir e =>
          simp only [mkdirAll, hf] at h
          obtain ⟨e', he, -⟩ := Option.map_eq_some_iff.mp h
          simp only [stat, get, hf]
          exact ih he hqp

lemma Dir.put_exists (h : d.stat p = some .dir) (x : ν) (i : Option (Node ν α)) :
    ∃ d', d.put p x i = some d' := by
  induction p generalizing d with
  | nil => exact ⟨_, rfl⟩
  | cons c p ih =>
    cases hf : d.find c with
    | none => simp [stat, get, hf] at h
    | some n =>
      cases n with
      | file a =>
        by_cases hp : p = []
        · simp [stat, get, hf, hp, Node.stat] at h
        · simp [stat, get, hf, hp] at h
      | dir e =>
        have he : e.stat p = some .dir := by
          simpa only [stat, get, hf] using h
        obtain ⟨e', he'⟩ := ih he
        exact ⟨d.set c (some (.dir e')), by simp only [put, hf, he', Option.map_some]⟩

/-- Directories can be made where no file is in the way. -/
lemma Dir.mkdirAll_exists (h : ∀ q a, q <+: p → d.stat q ≠ some (.file a)) :
    ∃ d', d.mkdirAll p = some d' := by
  induction p generalizing d with
  | nil => exact ⟨d, rfl⟩
  | cons c p ih =>
    cases hf : d.find c with
    | none =>
      have hnil : ∀ q a, q <+: p → (Dir.nil : Dir ν α).stat q ≠ some (.file a) := by
        intro q a _
        cases q with
        | nil => simp [stat, get, Node.stat]
        | cons y q => simp [stat, get, find]
      obtain ⟨e', he'⟩ := ih hnil
      exact ⟨d.set c (some (.dir e')), by simp only [mkdirAll, hf, he', Option.map_some]⟩
    | some n =>
      cases n with
      | file a =>
        refine absurd ?_ (h [c] a ⟨p, rfl⟩)
        simp [stat, get, hf, Node.stat]
      | dir e =>
        have he : ∀ q a, q <+: p → e.stat q ≠ some (.file a) := by
          intro q a hq
          have hc := h (c :: q) a (List.cons_prefix_cons.mpr ⟨rfl, hq⟩)
          simpa only [stat, get, hf] using hc
        obtain ⟨e', he'⟩ := ih he
        exact ⟨d.set c (some (.dir e')), by simp only [mkdirAll, hf, he', Option.map_some]⟩

end Paths

/-- A tree in which every directory has distinct names. -/
structure Tree (ν α : Type*) [DecidableEq ν] where
  top : Dir ν α
  distinct : top.Distinct

section System

def Tree.stat (t : Tree ν α) (p : List ν) : Option (Stat α) := t.top.stat p

def Stat.toFile : Option (Stat α) → Option α
  | some (.file a) => some a
  | _ => none

/-- The file at a path. -/
def Tree.file (t : Tree ν α) (p : List ν) : Option α := Stat.toFile (t.stat p)

variable [LT ν] [DecidableLT ν]

def Tree.mkdirAll (t : Tree ν α) (p : List ν) : Option (Tree ν α) :=
  (t.top.mkdirAll p).attach.map fun d => ⟨d.1, t.distinct.mkdirAll d.2⟩

/-- Replaces what is at the path by a file or by nothing. -/
def Tree.write (t : Tree ν α) (p : List ν) (a : Option α) : Option (Tree ν α) :=
  match p.getLast? with
  | none => none
  | some x => (t.top.put p.dropLast x (a.map .file)).attach.map fun d =>
      ⟨d.1, t.distinct.put (by cases a <;> simp [Node.Distinct]) d.2⟩

/-- Opens a new file. -/
def Tree.create (t : Tree ν α) (p : List ν) (a : α) : Option (Tree ν α) :=
  match t.stat p with
  | none => t.write p (some a)
  | some _ => none

def Tree.link (t : Tree ν α) (src dst : List ν) : Option (Tree ν α) :=
  match t.stat src, t.stat dst with
  | some (.file a), none => t.write dst (some a)
  | _, _ => none

/-- Moves a file, onto another one if there is one. -/
def Tree.rename (t : Tree ν α) (src dst : List ν) : Option (Tree ν α) :=
  match t.stat src, t.stat dst with
  | some (.file _), some .dir => none
  | some (.file a), _ => (t.write src none).bind fun t => t.write dst (some a)
  | _, _ => none

/-- Changes a file in place. -/
def Tree.modify (t : Tree ν α) (p : List ν) (f : α → α) : Option (Tree ν α) :=
  match t.stat p with
  | some (.file a) => t.write p (some (f a))
  | _ => none

/-- Removes a file or an empty directory. -/
def Tree.remove (t : Tree ν α) (p : List ν) : Option (Tree ν α) :=
  match t.top.get p with
  | some (.file _) | some (.dir .nil) => t.write p none
  | _ => none

variable {t t' : Tree ν α} {p q src dst : List ν}

lemma Tree.stat_mkdirAll (h : t.mkdirAll p = some t') (q : List ν) :
    t'.stat q = if q <+: p then some .dir else t.stat q := by
  obtain ⟨⟨d, hd⟩, -, rfl⟩ := Option.map_eq_some_iff.mp h
  exact Dir.stat_mkdirAll hd q

/-- What is written over has nothing below it. -/
lemma Tree.stat_write {a : Option α} (h : t.write p a = some t')
    (hleaf : ∀ r, r ≠ [] → t.stat (p ++ r) = none) :
    t'.stat = Function.update t.stat p (a.map .file) := by
  unfold write at h
  split at h
  · cases h
  rename_i x hx
  obtain ⟨⟨d, hd⟩, -, rfl⟩ := Option.map_eq_some_iff.mp h
  obtain ⟨p', rfl⟩ := List.getLast?_eq_some_iff.mp hx
  rw [List.dropLast_concat] at hd
  funext q
  by_cases hq : p' ++ [x] <+: q
  · obtain ⟨r, rfl⟩ := hq
    have hget := Dir.get_put_under hd r
    have hstat : (⟨d, t.distinct.put (by cases a <;> simp [Node.Distinct]) hd⟩ : Tree ν α).stat
        (p' ++ [x] ++ r) = if r = [] then a.map .file else none := by
      simp only [stat, Dir.stat, List.append_assoc, List.singleton_append, hget]
      cases a with
      | none => simp
      | some a => by_cases hr : r = [] <;> simp [hr, Node.stat]
    rw [hstat]
    by_cases hr : r = []
    · simp [hr]
    · rw [Function.update_of_ne (by simpa using hr), hleaf r hr, if_neg hr]
  · rw [Function.update_of_ne fun he : q = p' ++ [x] => hq (he ▸ List.prefix_rfl)]
    exact Dir.stat_put_other hd hq

omit [LT ν] [DecidableLT ν] in
lemma Tree.stat_below (h : t.stat p ≠ some .dir) (r : List ν) (hr : r ≠ []) :
    t.stat (p ++ r) = none :=
  Dir.stat_append_of_ne_dir h hr

lemma Tree.stat_create {a : α} (h : t.create p a = some t') :
    t.stat p = none ∧ t'.stat = Function.update t.stat p (some (.file a)) := by
  unfold create at h
  split at h
  · rename_i hp
    exact ⟨hp, stat_write h (stat_below (by simp [hp]))⟩
  · cases h

lemma Tree.stat_link (h : t.link src dst = some t') : ∃ a, t.stat src = some (.file a) ∧
    t.stat dst = none ∧ t'.stat = Function.update t.stat dst (some (.file a)) := by
  unfold link at h
  split at h
  · rename_i a hs hd
    exact ⟨a, hs, hd, stat_write h (stat_below (by simp [hd]))⟩
  · cases h

lemma Tree.stat_rename (h : t.rename src dst = some t') : ∃ a, t.stat src = some (.file a) ∧
    t.stat dst ≠ some .dir ∧
    t'.stat = Function.update (Function.update t.stat src none) dst (some (.file a)) := by
  unfold rename at h
  split at h
  · cases h
  · rename_i a hs hd
    obtain ⟨u, hu, hw⟩ := Option.bind_eq_some_iff.mp h
    have hus := stat_write hu (stat_below (by simp [hs]))
    have hud : u.stat dst ≠ some .dir := by
      rw [hus]
      by_cases he : dst = src
      · simp [he]
      · rwa [Function.update_of_ne he]
    refine ⟨a, hs, hd, ?_⟩
    rw [stat_write hw (stat_below hud), hus]
    rfl
  · cases h

lemma Tree.stat_remove (h : t.remove p = some t') :
    t.stat p ≠ none ∧ t'.stat = Function.update t.stat p none := by
  unfold remove at h
  split at h
  · rename_i a hp
    have hs : t.stat p = some (.file a) := by simp [stat, Dir.stat, hp, Node.stat]
    exact ⟨by simp [hs], stat_write h (stat_below (by simp [hs]))⟩
  · rename_i hp
    refine ⟨by simp [stat, Dir.stat, hp], stat_write h fun r hr => ?_⟩
    simp only [stat, Dir.stat, Dir.get_append hp]
    exact Dir.stat_nil hr
  · cases h

lemma Tree.stat_modify {f : α → α} (h : t.modify p f = some t') : ∃ a, t.stat p = some (.file a) ∧
    t'.stat = Function.update t.stat p (some (.file (f a))) := by
  unfold modify at h
  split at h
  · rename_i a hp
    exact ⟨a, hp, stat_write h (stat_below (by simp [hp]))⟩
  · cases h

omit [LT ν] [DecidableLT ν] in
lemma Tree.file_update {x : Option (Stat α)} (h : t'.stat = Function.update t.stat p x) :
    t'.file = Function.update t.file p (Stat.toFile x) := by
  funext q
  by_cases hq : q = p
  · simp [file, h, hq]
  · simp [file, h, Function.update_of_ne hq]

omit [LT ν] [DecidableLT ν] in
lemma Tree.file_eq_some {a : α} : t.file p = some a ↔ t.stat p = some (.file a) := by
  unfold file Stat.toFile
  split
  · rename_i b hb
    simp [hb]
  · rename_i hne
    simpa using fun hs => hne a hs

omit [LT ν] [DecidableLT ν] in
/-- There is no file on the way to something. -/
lemma Tree.file_of_below {r : List ν} (hr : r ≠ []) (h : t.stat (p ++ r) ≠ none) :
    t.file p = none := by
  have hdir : t.stat p = some .dir := by
    by_contra hne
    exact h (stat_below hne r hr)
  simp [file, hdir, Stat.toFile]

lemma Tree.file_create {a : α} (h : t.create p a = some t') :
    t'.file = Function.update t.file p (some a) :=
  file_update (stat_create h).2

lemma Tree.file_link (h : t.link src dst = some t') :
    ∃ a, t.file src = some a ∧ t'.file = Function.update t.file dst (some a) := by
  obtain ⟨a, hs, -, hstat⟩ := stat_link h
  exact ⟨a, file_eq_some.mpr hs, file_update hstat⟩

lemma Tree.file_rename (h : t.rename src dst = some t') : ∃ a, t.file src = some a ∧
    t'.file = Function.update (Function.update t.file src none) dst (some a) := by
  obtain ⟨a, hs, -, hstat⟩ := stat_rename h
  refine ⟨a, file_eq_some.mpr hs, ?_⟩
  funext q
  simp only [file, hstat, Function.update_apply]
  split
  · rfl
  · split <;> rfl

lemma Tree.file_remove (h : t.remove p = some t') : t'.file = Function.update t.file p none :=
  file_update (stat_remove h).2

lemma Tree.file_modify {f : α → α} (h : t.modify p f = some t') :
    ∃ a, t.file p = some a ∧ t'.file = Function.update t.file p (some (f a)) := by
  obtain ⟨a, hs, hstat⟩ := stat_modify h
  exact ⟨a, file_eq_some.mpr hs, file_update hstat⟩

lemma Tree.file_mkdirAll (h : t.mkdirAll p = some t') : t'.file = t.file := by
  funext q
  have hstat := stat_mkdirAll h q
  by_cases hq : q <+: p
  · rw [if_pos hq] at hstat
    have hnone : t.file q = none := by
      obtain ⟨⟨d, hd⟩, -, rfl⟩ := Option.map_eq_some_iff.mp h
      by_contra hsome
      obtain ⟨a, ha⟩ := Option.ne_none_iff_exists'.mp hsome
      exact Dir.mkdirAll_ne_file hd hq a (file_eq_some.mp ha)
    rw [hnone]
    simp [file, hstat, Stat.toFile]
  · rw [if_neg hq] at hstat
    simp [file, hstat]

lemma Tree.mkdirAll_exists (h : ∀ q a, q <+: p → t.stat q ≠ some (.file a)) :
    ∃ t', t.mkdirAll p = some t' := by
  obtain ⟨d, hd⟩ := Dir.mkdirAll_exists h
  exact ⟨⟨d, t.distinct.mkdirAll hd⟩, by simp [mkdirAll, hd]⟩

section Parent
variable {x : ν}

lemma Tree.write_exists (h : t.stat p = some .dir) (x : ν) (a : Option α) :
    ∃ t', t.write (p ++ [x]) a = some t' := by
  obtain ⟨d, hd⟩ := Dir.put_exists h x (a.map .file)
  refine ⟨⟨d, t.distinct.put (by cases a <;> simp [Node.Distinct]) hd⟩, ?_⟩
  simp [write, hd]

lemma Tree.create_exists (h : t.stat p = some .dir) (hx : t.stat (p ++ [x]) = none) (a : α) :
    ∃ t', t.create (p ++ [x]) a = some t' := by
  obtain ⟨t', ht'⟩ := write_exists h x (some a)
  exact ⟨t', by simp only [create, hx, ht']⟩

lemma Tree.modify_exists (h : t.stat p = some .dir) {a : α} (hx : t.stat (p ++ [x]) = some (.file a))
    (f : α → α) : ∃ t', t.modify (p ++ [x]) f = some t' := by
  obtain ⟨t', ht'⟩ := write_exists h x (some (f a))
  exact ⟨t', by simp only [modify, hx, ht']⟩

lemma Tree.link_exists (h : t.stat p = some .dir) {a : α} (hsrc : t.stat src = some (.file a))
    (hx : t.stat (p ++ [x]) = none) : ∃ t', t.link src (p ++ [x]) = some t' := by
  obtain ⟨t', ht'⟩ := write_exists h x (some a)
  exact ⟨t', by simp only [link, hsrc, hx, ht']⟩

/-- A file can be moved within its directory, over a file or to a new name. -/
lemma Tree.rename_exists (h : t.stat p = some .dir) {y : ν} {a : α}
    (hsrc : t.stat (p ++ [y]) = some (.file a)) (hx : t.stat (p ++ [x]) ≠ some .dir) :
    ∃ t', t.rename (p ++ [y]) (p ++ [x]) = some t' := by
  obtain ⟨u, hu⟩ := write_exists h y none
  have hus := stat_write hu (stat_below (by simp [hsrc]))
  have hup : u.stat p = some .dir := by
    rw [hus, Function.update_of_ne (by simp), h]
  obtain ⟨t', ht'⟩ := write_exists hup x (some a)
  refine ⟨t', ?_⟩
  unfold rename
  split
  · rename_i hdir
    exact absurd hdir hx
  · rename_i b hs _
    rw [hsrc] at hs
    cases hs
    rw [hu, Option.bind_some, ht']
  · rename_i hno _
    exact absurd hsrc (hno a)

end Parent

end System

section Walk
variable {σ : Type*}

/-- Visits the entries of a directory and everything below them. The flag that a
visit returns keeps the walk out of a directory, or ends it after a file. -/
def Dir.walk (fn : σ → List ν → Node ν α → σ × Bool) : Dir ν α → List ν → σ → σ
  | .nil, _, acc => acc
  | .file x a rest, here, acc =>
    let r := fn acc (here ++ [x]) (.file a)
    if r.2 then r.1 else rest.walk fn here r.1
  | .dir x e rest, here, acc =>
    let r := fn acc (here ++ [x]) (.dir e)
    if r.2 then rest.walk fn here r.1
    else rest.walk fn here (e.walk fn (here ++ [x]) r.1)

/-- The files outside of the directories that `skip` names, by their paths. -/
def Dir.files (skip : ν → Bool) : Dir ν α → List (List ν × α)
  | .nil => []
  | .file x a rest => ([x], a) :: rest.files skip
  | .dir x e rest =>
    (if skip x then [] else (e.files skip).map fun f => (x :: f.1, f.2)) ++ rest.files skip

omit [DecidableEq ν] in
/-- A walk that keeps out of the directories that `skip` names and goes through the
files with `visit`. -/
theorem Dir.walk_eq_foldl {fn : σ → List ν → Node ν α → σ × Bool} {skip : ν → Bool}
    {visit : σ → List ν → α → σ}
    (hdir : ∀ acc here x e, fn acc (here ++ [x]) (.dir e) = (acc, skip x))
    (hfile : ∀ acc here x a, fn acc (here ++ [x]) (.file a) = (visit acc (here ++ [x]) a, false))
    (d : Dir ν α) (here : List ν) (acc : σ) :
    d.walk fn here acc = (d.files skip).foldl (fun acc f => visit acc (here ++ f.1) f.2) acc := by
  induction d generalizing here acc with
  | nil => rfl
  | file x a rest ih => simp [walk, files, hfile, ih]
  | dir x e rest ihe ih =>
    cases hx : skip x with
    | true => simp [walk, files, hdir, hx, ih]
    | false =>
      simp only [walk, hdir, hx, Bool.false_eq_true, if_false, ih, ihe, files, List.foldl_append,
        List.foldl_map, List.append_assoc, List.singleton_append]

variable {d : Dir ν α} {skip : ν → Bool} {p : List ν} {a : α}

lemma Dir.stat_cons (c : ν) (p : List ν) : d.stat (c :: p) =
    match d.find c with
    | some (.dir e) => e.stat p
    | some (.file a) => if p = [] then some (.file a) else none
    | none => none := by
  simp only [stat, get]
  cases d.find c with
  | none => rfl
  | some n =>
    cases n with
    | dir e => rfl
    | file a => by_cases hp : p = [] <;> simp [hp, Node.stat]

lemma Dir.stat_ne_file_nil : d.stat [] ≠ some (.file a) := by simp [stat, get, Node.stat]

lemma Dir.stat_cons_of_find_none {c : ν} (h : d.find c = none) (p : List ν) :
    d.stat (c :: p) = none := by
  simp [stat_cons, h]

/-- The walk comes to every file, except below a directory that is skipped. -/
theorem Dir.mem_files (hd : d.Distinct) : (p, a) ∈ d.files skip ↔
    d.stat p = some (.file a) ∧ ∀ c ∈ p.dropLast, skip c = false := by
  induction d generalizing p with
  | nil =>
    cases p with
    | nil => simp [files, stat_ne_file_nil]
    | cons c p => simp [files, stat_cons, find]
  | file x b rest ih =>
    obtain ⟨hx, hr⟩ := hd
    simp only [files, List.mem_cons, ih hr, Prod.mk.injEq]
    cases p with
    | nil => simp [stat_ne_file_nil]
    | cons c p =>
      by_cases hc : x = c
      · subst hc
        simp only [stat_cons_of_find_none hx, stat_cons, find, if_pos]
        by_cases hp : p = []
        · simpa [hp] using eq_comm
        · simp [hp]
      · have hc' : c ≠ x := fun h => hc h.symm
        simp [stat_cons, find, hc, hc']
  | dir x e rest ihe ih =>
    obtain ⟨hx, he, hr⟩ := hd
    simp only [files, List.mem_append, ih hr]
    cases p with
    | nil => by_cases hs : skip x = true <;> simp [hs, stat_ne_file_nil]
    | cons c p =>
      by_cases hc : x = c
      · subst hc
        simp only [stat_cons_of_find_none hx, stat_cons x p, find, if_pos, reduceCtorEq, false_and,
          or_false]
        cases hs : skip x with
        | true =>
          simp only [if_true, List.not_mem_nil, false_iff, not_and]
          intro hstat hall
          have hp : p ≠ [] := fun hp => stat_ne_file_nil (hp ▸ hstat)
          exact absurd (hall x (by simp [List.dropLast_cons_of_ne_nil hp])) (by simp [hs])
        | false =>
          simp only [Bool.false_eq_true, if_false, List.mem_map, Prod.mk.injEq, List.cons.injEq,
            true_and, Prod.exists, exists_eq_right_right, exists_eq_right, ihe he]
          refine and_congr_right fun hstat => ?_
          have hp : p ≠ [] := fun hp => stat_ne_file_nil (hp ▸ hstat)
          simp [List.dropLast_cons_of_ne_nil hp, hs]
      · have hout : (c :: p, a) ∉ (if skip x = true then [] else
            (e.files skip).map fun f => (x :: f.1, f.2)) := by
          split
          · simp
          · simp [hc]
        simp [hout, stat_cons, find, hc]

/-- The walk comes to no path twice. -/
theorem Dir.nodup_files (hd : d.Distinct) : ((d.files skip).map Prod.fst).Nodup := by
  induction d with
  | nil => exact List.nodup_nil
  | file x b rest ih =>
    obtain ⟨hx, hr⟩ := hd
    rw [files, List.map_cons, List.nodup_cons]
    refine ⟨fun hmem => ?_, ih hr⟩
    obtain ⟨⟨q, b'⟩, hq, rfl⟩ := List.mem_map.mp hmem
    have hstat := ((mem_files hr).mp hq).1
    rw [stat_cons_of_find_none hx] at hstat
    cases hstat
  | dir x e rest ihe ih =>
    obtain ⟨hx, he, hr⟩ := hd
    rw [files, List.map_append]
    refine List.Nodup.append ?_ (ih hr) ?_
    · split
      · exact List.nodup_nil
      · rw [List.map_map]
        have hcomp : (Prod.fst ∘ fun f : List ν × α => (x :: f.1, f.2)) = (x :: ·) ∘ Prod.fst := rfl
        rw [hcomp, ← List.map_map]
        exact (ihe he).map (List.cons_injective)
    · intro q hq hq'
      obtain ⟨⟨q, b⟩, hmem, rfl⟩ := List.mem_map.mp hq'
      have hstat := ((mem_files hr).mp hmem).1
      split at hq
      · simp at hq
      · obtain ⟨f, hf, rfl⟩ := List.mem_map.mp hq
        obtain ⟨g, -, rfl⟩ := List.mem_map.mp hf
        rw [stat_cons_of_find_none hx] at hstat
        cases hstat

end Walk

end CloudyNeigh.FileTree
