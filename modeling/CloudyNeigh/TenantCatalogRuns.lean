import CloudyNeigh.TenantCatalog

/-!
# No update of the tenant catalog is lost

Every write of `ns.json` is made on top of the catalog that is there, so entries
are only added, and an entry only changes by being deleted, once.
-/
namespace CloudyNeigh.Tenant
open Naming Transition Versioned
open ReadModifyWrite (Outcome initial initial_sound)

/-- What a call that returned `entry` has left in the catalog. -/
structure Recorded (store : CatalogStore) (c : CatalogCall) (entry : NamespaceMetadata) :
    Prop where
  kept : ∃ m, entryOf store c.name = some m ∧ Entry.Le entry m
  deleted : c.op = .deleteNamespace → entry.DeletedAt ≠ 0

structure Inv (s : State) : Prop where
  sound : s.store.Sound
  ok : ∀ i c, s.calls i = some c → c.Ok s.store
  recorded : ∀ i c entry, s.calls i = some c → c.pc = .returned entry →
    Recorded s.store c entry
  created : ∀ i j c d m n, s.calls i = some c → s.calls j = some d → c.op = .createNamespace →
    d.op = .createNamespace → c.name = d.name → c.pc = .returned m → d.pc = .returned n → i = j

/-- What one step does: start a call, or one step of a call. -/
inductive Change (s t : State) : Prop
  | start (i : ℕ) (op : CatalogOp) (name : String) (now : ℤ) (fresh : s.calls i = none)
    (own : t.calls i = some (.start op name now)) (others : ∀ j ≠ i, t.calls j = s.calls j)
    (store : t.store = s.store)
  | call (i : ℕ) (c : CatalogCall) (pc : CatalogPc) (before : s.calls i = some c)
    (running : ∀ entry, c.pc ≠ .returned entry) (own : t.calls i = some (c.goto pc))
    (others : ∀ j ≠ i, t.calls j = s.calls j) (o : Outcome)
    (step : c.step s.store o = some (t.store, c.goto pc)) (effect : c.Effect s.store t.store pc)

section Step
variable {s t : State}

lemma step_running {store store' : CatalogStore} {c c' : CatalogCall} {o : Outcome}
    (h : c.step store o = some (store', c')) (entry : NamespaceMetadata) :
    c.pc ≠ .returned entry := by
  intro hc
  simp [CatalogCall.step, ReadModifyWrite.Loop.stepCall, catalogLoop, hc] at h

lemma step_change (hi : Inv s) {a : Action} (h : step s a = some t) : Change s t := by
  cases a with
  | call i op name now =>
    simp only [step] at h
    split at h <;> cases h
    exact .start i op name now ‹_› (Function.update_self ..)
      (fun j hj => Function.update_of_ne hj ..) rfl
  | step i o =>
    simp only [step] at h
    split at h
    · cases h
    · rename_i c hc
      split at h <;> cases h
      rename_i store c' hstep
      obtain ⟨pc, rfl, he⟩ := c.step_effect (hi.ok i c hc) hstep
      exact .call i c pc hc (step_running hstep) (Function.update_self ..)
        (fun j hj => Function.update_of_ne hj ..) o hstep he

lemma start_not_returned (op : CatalogOp) (name : String) (now : ℤ) (entry : NamespaceMetadata) :
    (CatalogCall.start op name now).pc ≠ .returned entry := by
  unfold CatalogCall.start
  dsimp only
  split <;> simp

lemma Recorded.keeps {store store' : CatalogStore} {c : CatalogCall} {entry : NamespaceMetadata}
    (h : Recorded store c entry) (hk : Keeps store store') : Recorded store' c entry := by
  obtain ⟨⟨m, hm, hle⟩, hd⟩ := h
  obtain ⟨m', hm', hle'⟩ := hk _ m hm
  exact ⟨⟨m', hm', hle.trans hle'⟩, hd⟩

/-- The step in which a call returns success. -/
lemma CatalogCall.Effect.recorded {store store' : CatalogStore} {c : CatalogCall}
    {entry : NamespaceMetadata} (h : c.Effect store store' (.returned entry)) :
    Recorded store' (c.goto (.returned entry)) entry := by
  cases h with
  | found entry hop hentry hd => exact ⟨⟨entry, hentry, .refl entry⟩, fun _ => hd⟩
  | write catalog entry' pc present updates done =>
    have he : entry = entry' := by
      rcases done with hd | hd <;> cases hd
      rfl
    subst he
    refine ⟨⟨entry, ?_, .refl entry⟩, fun hop => ?_⟩
    · rw [entryOf_put]
      exact Function.update_self ..
    · change c.op = _ at hop
      cases hu : catalog c.name with
      | none =>
        rw [hu] at updates
        cases updates with
        | create h =>
          rw [h] at hop
          cases hop
      | some old =>
        rw [hu] at updates
        cases updates with
        | delete =>
          dsimp only
          omega

/-- A create returns success only if the name had no entry. -/
lemma CatalogCall.Effect.absent {store store' : CatalogStore} {c : CatalogCall}
    {entry : NamespaceMetadata} (h : c.Effect store store' (.returned entry))
    (hop : c.op = .createNamespace) : entryOf store c.name = none := by
  cases h with
  | found entry hop' =>
    rw [hop] at hop'
    cases hop'
  | write catalog entry' pc present updates done =>
    rw [present]
    cases hu : catalog c.name with
    | none => rfl
    | some old =>
      rw [hu] at updates
      cases updates with
      | delete h =>
        rw [hop] at h
        cases h

lemma Change.keeps (h : Change s t) : Keeps s.store t.store := by
  cases h with
  | start i op name now fresh own others store =>
    rw [store]
    exact Keeps.refl _
  | call i c pc before running own others o step effect => exact effect.keeps

/-- A call of the later state that has returned is one that had, or the one that moved. -/
lemma Change.returned (h : Change s t) {i : ℕ} {c : CatalogCall} {entry : NamespaceMetadata}
    (hc : t.calls i = some c) (hr : c.pc = .returned entry) :
    s.calls i = some c ∨ ∃ c₀ : CatalogCall, c = c₀.goto (.returned entry) ∧
      (∀ j ≠ i, t.calls j = s.calls j) ∧ c₀.Effect s.store t.store (.returned entry) := by
  cases h with
  | start j op name now fresh own others =>
    by_cases hij : i = j
    · subst hij
      rw [own] at hc
      cases hc
      exact absurd hr (start_not_returned op name now entry)
    · rw [others i hij] at hc
      exact Or.inl hc
  | call j c₀ pc before running own others o step effect =>
    by_cases hij : i = j
    · subst hij
      rw [own] at hc
      cases hc
      change pc = _ at hr
      subst hr
      exact Or.inr ⟨c₀, rfl, others, effect⟩
    · rw [others i hij] at hc
      exact Or.inl hc

lemma Change.ok (h : Change s t) (hi : Inv s) (i : ℕ) (c : CatalogCall)
    (hc : t.calls i = some c) : c.Ok t.store := by
  cases h with
  | start j op name now fresh own others store =>
    by_cases hij : i = j
    · subst hij
      rw [own] at hc
      cases hc
      exact start_ok _ _ _ _
    · rw [others i hij] at hc
      rw [store]
      exact hi.ok i c hc
  | call j c₀ pc before running own others o step effect =>
    by_cases hij : i = j
    · subst hij
      rw [own] at hc
      cases hc
      exact step_ok step hi.sound
    · rw [others i hij] at hc
      exact (hi.ok i c hc).later (step_later step)

/-- The first success of a create leaves an entry, which a second one would have found. -/
lemma Change.created (h : Change s t) (hi : Inv s) {i j : ℕ} {c d : CatalogCall}
    {m n : NamespaceMetadata} (hd : t.calls j = some d)
    (hname : c.name = d.name) (hcr : c.pc = .returned m) (hold : s.calls i = some c)
    (hop : d.op = .createNamespace) (hdr : d.pc = .returned n) : s.calls j = some d := by
  rcases h.returned hd hdr with hd' | ⟨d₀, rfl, others, effect⟩
  · exact hd'
  · obtain ⟨⟨e, he, -⟩, -⟩ := hi.recorded i c m hold hcr
    rw [hname, goto_name, effect.absent hop] at he
    cases he

lemma Change.inv (h : Change s t) (hi : Inv s) : Inv t := by
  refine ⟨?_, h.ok hi, ?_, ?_⟩
  · cases h with
    | start i op name now fresh own others store =>
      rw [store]
      exact hi.sound
    | call i c pc before running own others o step effect => exact step_sound step hi.sound
  · intro i c entry hc hr
    rcases h.returned hc hr with hold | ⟨c₀, rfl, -, he⟩
    · exact (hi.recorded i c entry hold hr).keeps h.keeps
    · exact he.recorded
  · intro i j c d m n hc hd hcop hdop hname hcr hdr
    by_contra hne
    rcases h.returned hc hcr with hc' | ⟨c₀, -, others, -⟩
    · have hd' := h.created hi hd hname hcr hc' hdop hdr
      exact hne (hi.created i j c d m n hc' hd' hcop hdop hname hcr hdr)
    · -- call `i` moved, so call `j` had returned before
      have hd' : s.calls j = some d := by rw [← others j (Ne.symm hne), hd]
      have hc' := h.created hi hc hname.symm hdr hd' hcop hcr
      exact hne (hi.created i j c d m n hc' hd' hcop hdop hname hcr hdr)

lemma inv_reachable {before : Option TenantCatalog} (h : (machine before).Reachable s) : Inv s := by
  refine Machine.Reachable.invariant (P := Inv) ?_ (fun s a t hs hst =>
    (step_change hs hst).inv hs) h
  refine ⟨?_, ?_, ?_, ?_⟩
  · exact initial_sound before
  · intro i c hc
    cases hc
  · intro i c entry hc
    cases hc
  · intro i j c d m n hc
    cases hc

/-- What holds between a state and every later one. -/
structure Later (s t : State) : Prop where
  keeps : Keeps s.store t.store
  returned : ∀ i c entry, s.calls i = some c → c.pc = .returned entry → t.calls i = some c
  created : ∀ i c entry, t.calls i = some c → c.op = .createNamespace → c.pc = .returned entry →
    entryOf s.store c.name ≠ none → s.calls i = some c

lemma Change.later (h : Change s t) : Later s t := by
  refine ⟨h.keeps, ?_, ?_⟩
  · intro i c entry hc hr
    cases h with
    | start j op name now fresh own others =>
      have hij : i ≠ j := by
        rintro rfl
        rw [hc] at fresh
        cases fresh
      rw [others i hij, hc]
    | call j c₀ pc before running own others o step effect =>
      have hij : i ≠ j := by
        rintro rfl
        rw [hc] at before
        cases before
        exact running entry hr
      rw [others i hij, hc]
  · intro i c entry hc hop hr hne
    rcases h.returned hc hr with hold | ⟨c₀, rfl, -, he⟩
    · exact hold
    · exact absurd (he.absent hop) hne

lemma later_run {before : Option TenantCatalog} (hs : (machine before).Reachable s)
    (h : (machine before).Run anyStep s t) : Later s t := by
  refine Machine.Run.relates (R := Later) ?_ ?_ ?_ hs h
  · exact fun s => ⟨Keeps.refl _, fun _ _ _ hc _ => hc, fun _ _ _ hc _ _ _ => hc⟩
  · intro s t u hst htu
    refine ⟨hst.keeps.trans htu.keeps, ?_, ?_⟩
    · intro i c entry hc hr
      exact htu.returned i c entry (hst.returned i c entry hc hr) hr
    · intro i c entry hc hop hr hne
      obtain ⟨m, hm⟩ := Option.ne_none_iff_exists'.mp hne
      obtain ⟨m', hm', -⟩ := hst.keeps _ m hm
      have ht := htu.created i c entry hc hop hr (by rw [hm']; simp)
      exact hst.created i c entry ht hop hr hne
  · intro s a t hs _ hst
    exact (step_change (inv_reachable hs) hst).later

end Step

/-- The history of the catalog, for a state and any state after it: a name is
created once at most; an entry stays, with its epoch and creation; the deletion
is set once, every delete returns it and no create of the name succeeds after;
and what a call that succeeded did is in every later catalog. -/
theorem catalog_loses_no_update (before : Option TenantCatalog) {s t : State}
    (hs : (machine before).Reachable s) (hst : (machine before).Run anyStep s t) :
    (∀ i j c d m n, t.calls i = some c → t.calls j = some d → c.op = .createNamespace →
      d.op = .createNamespace → c.name = d.name → c.pc = .returned m → d.pc = .returned n →
      i = j) ∧
    (∀ name m, entryOf s.store name = some m → ∃ m', entryOf t.store name = some m' ∧
      m'.Epoch = m.Epoch ∧ m'.CreatedAt = m.CreatedAt ∧
      (m.DeletedAt ≠ 0 → m'.DeletedAt = m.DeletedAt)) ∧
    (∀ name m, entryOf s.store name = some m → m.DeletedAt ≠ 0 → ∀ i c entry,
      t.calls i = some c → c.op = .deleteNamespace → c.name = name → c.pc = .returned entry →
      entry.DeletedAt = m.DeletedAt) ∧
    (∀ name m, entryOf s.store name = some m → ∀ i c entry, t.calls i = some c →
      c.op = .createNamespace → c.name = name → c.pc = .returned entry → s.calls i = some c) ∧
    (∀ i c entry, s.calls i = some c → c.pc = .returned entry →
      (c.op = .deleteNamespace → entry.DeletedAt ≠ 0) ∧
      ∃ m, entryOf t.store c.name = some m ∧ m.Epoch = entry.Epoch ∧
        m.CreatedAt = entry.CreatedAt ∧ (entry.DeletedAt ≠ 0 → m.DeletedAt = entry.DeletedAt)) := by
  have hit := inv_reachable (hs.run hst)
  have hl := later_run hs hst
  refine ⟨hit.created, ?_, ?_, ?_, ?_⟩
  · intro name m hm
    obtain ⟨m', hm', hle⟩ := hl.keeps name m hm
    exact ⟨m', hm', hle.epoch, hle.createdAt, hle.deletedAt⟩
  · rintro name m hm hd i c entry hc hop rfl hr
    obtain ⟨⟨e, he, hle⟩, hdel⟩ := hit.recorded i c entry hc hr
    obtain ⟨m', hm', hle'⟩ := hl.keeps _ m hm
    rw [he] at hm'
    cases hm'
    rw [← hle.deletedAt (hdel hop), hle'.deletedAt hd]
  · rintro name m hm i c entry hc hop rfl hr
    exact hl.created i c entry hc hop hr (by rw [hm]; simp)
  · intro i c entry hc hr
    obtain ⟨⟨e, he, hle⟩, hdel⟩ := hit.recorded i c entry (hl.returned i c entry hc hr) hr
    exact ⟨hdel, e, he, hle.epoch, hle.createdAt, hle.deletedAt⟩

-- Two creates of one name race for the first catalog, and a delete follows.
def createScript : List Action :=
  [.call 0 .createNamespace "a" 7, .call 1 .createNamespace "a" 9, .step 0 .ok, .step 1 .ok,
   .step 1 .ok, .step 0 .preconditionFailed, .step 0 .ok,
   .call 2 .deleteNamespace "a" (-3), .step 2 .ok, .step 2 .ok]

-- A second delete with a later clock, and a create that comes too late.
def againScript : List Action :=
  [.call 3 .deleteNamespace "a" 50, .step 3 .ok, .call 4 .createNamespace "a" 60, .step 4 .ok]

def hasReturned (s : State) (i : ℕ) : Option NamespaceMetadata :=
  match (s.calls i).map CatalogCall.pc with
  | some (.returned entry) => some entry
  | _ => none

lemma hasReturned_some {s : State} {i : ℕ} {entry : NamespaceMetadata}
    (h : hasReturned s i = some entry) : ∃ c, s.calls i = some c ∧ c.pc = .returned entry := by
  unfold hasReturned at h
  cases hc : s.calls i with
  | none => simp [hc] at h
  | some c =>
    simp only [hc, Option.map_some] at h
    split at h <;> cases h
    rename_i heq
    exact ⟨c, rfl, Option.some.inj heq⟩

set_option maxRecDepth 4000 in
theorem catalog_loses_no_update_race : ∃ s t : State,
    (machine none).Reachable s ∧ (machine none).Run anyStep s t ∧
    hasReturned s 1 = some ⟨0, 9, 0⟩ ∧ hasReturned t 0 = none ∧ hasReturned t 4 = none ∧
    hasReturned s 2 = some ⟨0, 9, 1⟩ ∧ hasReturned t 3 = some ⟨0, 9, 1⟩ ∧
    ∃ m, entryOf t.store "a" = some m ∧ m.Epoch = 0 ∧ m.CreatedAt = 9 ∧ m.DeletedAt = 1 := by
  obtain ⟨s, t, hs, hst, h1, h0, h4, h2, h3, hname⟩ := Machine.exec_exists_pair (machine none)
    anyStep (machine none).init createScript againScript
    (fun s t => hasReturned s 1 = some ⟨0, 9, 0⟩ ∧ hasReturned t 0 = none ∧
      hasReturned t 4 = none ∧ hasReturned s 2 = some ⟨0, 9, 1⟩ ∧
      hasReturned t 3 = some ⟨0, 9, 1⟩ ∧ (s.calls 2).map CatalogCall.name = some "a")
    (by decide +kernel)
  obtain ⟨-, -, -, -, hkept⟩ := catalog_loses_no_update none hs hst
  obtain ⟨c, hc, hr⟩ := hasReturned_some h2
  obtain ⟨-, m, hm, hepoch, hcreated, hdeleted⟩ := hkept 2 c _ hc hr
  rw [hc, Option.map_some, Option.some.injEq] at hname
  rw [hname] at hm
  exact ⟨s, t, hs, hst, h1, h0, h4, h2, h3, m, hm, hepoch, hcreated, hdeleted (by decide)⟩

end CloudyNeigh.Tenant
