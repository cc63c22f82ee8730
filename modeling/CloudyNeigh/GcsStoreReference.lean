import CloudyNeigh.GcsStore

/-!
# The store in a bucket is the reference store

`gcsStore`, one call after the other, while others write to the bucket outside of the
tenant's prefix. The service gives every `Put` a positive generation that no earlier `Put`
of the object got.
-/
namespace CloudyNeigh.GcsStore
open RecordIO ObjectStore Listing Transition
open LocalStore (Condition minus plus)
open LogStream (ascii isDigit digitsValue)

variable {σ : Type*}

/-- A generation that the service gives. -/
def Given (gen : ℤ) : Prop := 0 < gen ∧ gen < 2 ^ 63

/-- The promise of the service for the generation of a `Put`. -/
def Fresh (trace : List StoreEvent) (gen : ℤ) : StoreRequest → Prop
  | .put key _ _ => Given gen ∧ (key, formatInt gen) ∉ trace.filterMap StoreEvent.issue
  | _ => True

/-- What is asked of the callers, of the service and of the others. -/
def Store.Served (g : Store) (t : Recorded σ StoreEvent) : BucketAction → Prop
  | .call r gen => Keyed r ∧ Fresh t.reports gen r
  | .foreignWrite name _ _ | .foreignDelete name => ¬ g.InTenant name

/-- The text of a generation that stands for the number a condition gives. -/
def gcsCanon (s : Bytes) : Option Bytes :=
  match parseInt s with
  | none => none
  | some gen => if gen ≤ 0 then none else some (formatInt gen)

section Decimal

lemma isDigit_of_char {c : Char} (h : c.isDigit = true) :
    isDigit (UInt8.ofNat c.toNat) = true ∧ (UInt8.ofNat c.toNat).toNat = c.toNat := by
  obtain ⟨hlo, hhi⟩ := Char.isDigit_iff_toNat.mp h
  have hlo : 48 ≤ c.toNat := hlo
  have hhi : c.toNat ≤ 57 := hhi
  have hnat : (UInt8.ofNat c.toNat).toNat = c.toNat := by
    rw [UInt8.toNat_ofNat']
    omega
  refine ⟨?_, hnat⟩
  rw [isDigit, Bool.and_eq_true, decide_eq_true_eq, decide_eq_true_eq, UInt8.le_iff_toNat_le,
    UInt8.le_iff_toNat_le, hnat]
  exact ⟨hlo, hhi⟩

lemma formatInt_natCast (n : ℕ) :
    formatInt n = (Nat.toDigits 10 n).map fun c => UInt8.ofNat c.toNat := by
  change ascii (toString n) = _
  rw [ascii, Nat.toString_eq_ofList_toDigits, String.toList_ofList]

lemma digitsValue_map {l : List Char} (h : ∀ c ∈ l, c.isDigit = true) :
    digitsValue (l.map fun c => UInt8.ofNat c.toNat) = Nat.ofDigitChars 10 l 0 := by
  rw [digitsValue, List.foldl_map, Nat.ofDigitChars_eq_foldl]
  refine List.foldl_ext _ _ _ fun acc c hc => ?_
  rw [(isDigit_of_char (h c hc)).2, Nat.mul_comm]
  rfl

lemma parseInt_formatInt {n : ℕ} (h : n < 2 ^ 63) : parseInt (formatInt n) = some (n : ℤ) := by
  have hdigit : ∀ c ∈ Nat.toDigits 10 n, c.isDigit = true := fun c hc =>
    Nat.isDigit_of_mem_toDigits (by omega) le_rfl hc
  have hall : ∀ b ∈ formatInt n, isDigit b = true := by
    intro b hb
    rw [formatInt_natCast] at hb
    obtain ⟨c, hc, rfl⟩ := List.mem_map.mp hb
    exact (isDigit_of_char (hdigit c hc)).1
  have hvalue : digitsValue (formatInt n) = n := by
    rw [formatInt_natCast, digitsValue_map hdigit, Nat.ofDigitChars_ten_toDigits]
  have hne : formatInt n ≠ [] := by
    rw [formatInt_natCast]
    exact fun he => Nat.toDigits_ne_nil (List.map_eq_nil_iff.mp he)
  have hminus : (formatInt n).head? ≠ some minus := fun he =>
    absurd (hall _ (List.mem_of_head? he)) (by decide)
  have hplus : (formatInt n).head? ≠ some plus := fun he =>
    absurd (hall _ (List.mem_of_head? he)) (by decide)
  have hlt : n < 9223372036854775808 := h
  simp [parseInt, hminus, hplus, hne, hvalue, List.all_eq_true.mpr hall, hlt]

lemma Given.parse {gen : ℤ} (h : Given gen) : parseInt (formatInt gen) = some gen := by
  obtain ⟨n, rfl⟩ := Int.eq_ofNat_of_zero_le h.1.le
  exact parseInt_formatInt (by exact_mod_cast h.2)

lemma Given.canon {gen : ℤ} (h : Given gen) : gcsCanon (formatInt gen) = some (formatInt gen) := by
  rw [gcsCanon, h.parse]
  exact if_neg (not_le.mpr h.1)

lemma parseInt_lt {s : Bytes} {gen : ℤ} (h : parseInt s = some gen) : gen < 2 ^ 63 := by
  unfold parseInt at h
  dsimp only at h
  generalize (if s.head? = some minus ∨ s.head? = some plus then s.tail else s) = digits at h
  split at h
  · split at h
    · split at h <;> cases h
      omega
    · split at h <;> cases h
      exact_mod_cast ‹_›
  · cases h

end Decimal

def GcsObject.version (o : GcsObject) : Version := ⟨o.data, formatInt o.generation⟩

structure Shows (g : Store) (content : σ → Bytes → Option GcsObject) (b : σ) (s : Shelf) :
    Prop where
  shown : ∀ key, s.version key = (content b (g.base ++ key)).map GcsObject.version
  nonempty : content b g.base = none
  given : ∀ key o, content b (g.base ++ key) = some o → Given o.generation

section Calls
variable {g : Store} {V : Service σ} {content : σ → Bytes → Option GcsObject} {b b' : σ}
  {s : Shelf} {key data : Bytes} {cond : Condition}

lemma Shows.lookup (h : Shows g content b s) (hk : key ≠ []) :
    s.version key = (content b (g.resolveKey key)).map GcsObject.version := by
  rw [h.shown, resolveKey_eq hk]

lemma Shows.stat_reply (h : Shows g content b s) (hV : V.Lawful content) (hk : key ≠ []) :
    .ofExcept .object (g.Stat V b key) = statReply key (s.version key) := by
  rw [h.lookup hk, stat_eq hV]
  cases content b (g.resolveKey key) <;> rfl

lemma Shows.get_reply (h : Shows g content b s) (hV : V.Lawful content) (hk : key ≠ []) :
    .ofExcept (fun r => .data r.1 r.2) (g.Get V b key) = getReply key (s.version key) := by
  rw [h.lookup hk, get_eq hV]
  cases content b (g.resolveKey key) <;> rfl

lemma Shows.exists_reply (h : Shows g content b s) (hV : V.Lawful content) (hk : key ≠ []) :
    StoreReply.ofExcept .found (g.Exists V b key) = .found (s.version key).isSome := by
  rw [h.lookup hk, Option.isSome_map, exists_eq hV, StoreReply.ofExcept]

lemma Shows.range_reply (h : Shows g content b s) (hV : V.Lawful content) (hk : key ≠ [])
    {offset length : Int64} (hend : offset.toInt + length.toInt < 2 ^ 63) :
    .ofExcept (fun r => .data r.1 r.2) (g.ReadRange V b key offset length) =
      rangeReply key offset length (s.version key) := by
  rw [h.lookup hk]
  by_cases hneg : offset < 0 ∨ length < 0
  · rw [Store.ReadRange, if_pos hneg]
    cases content b (g.resolveKey key) with
    | none => rw [Option.map_none, rangeReply, if_pos hneg, StoreReply.ofExcept]
    | some o => rw [Option.map_some, rangeReply, if_pos hneg, StoreReply.ofExcept]
  · cases hl : content b (g.resolveKey key) with
    | none =>
      rw [Option.map_none, rangeReply, if_neg hneg, readRange_none hV hl hneg, StoreReply.ofExcept]
    | some o =>
      rw [Option.map_some, rangeReply_some, if_neg hneg, readRange_some hV hl hneg hend]
      split
      · rename_i hexc
        exact (if_pos hexc).symm
      · rename_i hexc
        exact (if_neg hexc).symm

/-- What `Put` asks for is malformed exactly if the text stands for no generation. -/
lemma conditions_error {e : StoreErr} (h : Store.conditions key cond = .error e) :
    e = .malformedGeneration key cond.GenerationMatch ∧ cond.Absent = false ∧
      cond.GenerationMatch ≠ [] ∧ gcsCanon cond.GenerationMatch = none := by
  unfold Store.conditions at h
  split at h
  · cases h
  rename_i habs
  rw [Bool.not_eq_true] at habs
  split at h
  · rename_i hne
    split at h
    · rename_i hparse
      cases h
      exact ⟨rfl, habs, hne, by rw [gcsCanon, hparse]⟩
    · rename_i gen hparse
      split at h
      · rename_i hle
        cases h
        exact ⟨rfl, habs, hne, by rw [gcsCanon, hparse]; exact if_pos hle⟩
      · cases h
  · cases h

/-- What `Put` asks for holds exactly if the text stands for the present generation. -/
lemma conditions_met {conds : Conditions} (h : Store.conditions key cond = .ok conds)
    {x : Option GcsObject} (hgiven : ∀ o, x = some o → Given o.generation) :
    (cond.Absent = false → cond.GenerationMatch ≠ [] → gcsCanon cond.GenerationMatch ≠ none) ∧
    (conds.Met x ↔ if cond.Absent then x = none else cond.GenerationMatch = [] ∨
      ∃ o, x = some o ∧ gcsCanon cond.GenerationMatch = some (formatInt o.generation)) := by
  unfold Store.conditions at h
  split at h
  · rename_i habs
    cases h
    simp [habs, Conditions.Met]
  rename_i habs
  rw [Bool.not_eq_true] at habs
  split at h
  · rename_i hne
    split at h
    · cases h
    · rename_i gen hparse
      split at h
      · cases h
      · rename_i hle
        cases h
        have hcanon : gcsCanon cond.GenerationMatch = some (formatInt gen) := by
          rw [gcsCanon, hparse]
          exact if_neg hle
        have hgen : Given gen := ⟨not_le.mp hle, parseInt_lt hparse⟩
        have hzero : gen ≠ 0 := ne_of_gt hgen.1
        refine ⟨fun _ _ => by simp [hcanon], ?_⟩
        cases x with
        | none => simp [Conditions.Met, habs, hne, hzero]
        | some o =>
          have hinj : formatInt gen = formatInt o.generation ↔ o.generation = gen := by
            refine ⟨fun he => ?_, fun he => by rw [he]⟩
            have hp := (hgiven o rfl).parse
            rw [← he, hgen.parse, Option.some.injEq] at hp
            exact hp.symm
          simp [Conditions.Met, habs, hne, hzero, hcanon, hinj]
  · rename_i hnil
    cases h
    rw [ne_eq, not_not] at hnil
    simp [Conditions.Met, habs, hnil]

lemma Shows.admits_iff (h : Shows g content b s) (hs : s.Wf) (hk : key ≠ []) (cond : Condition) :
    s.Admits gcsCanon key cond ↔
      if cond.Absent then content b (g.resolveKey key) = none
      else cond.GenerationMatch = [] ∨ ∃ o, content b (g.resolveKey key) = some o ∧
        gcsCanon cond.GenerationMatch = some (formatInt o.generation) := by
  rw [hs.admits_iff, h.lookup hk, Option.map_eq_none_iff]
  cases cond.Absent with
  | true => exact Iff.rfl
  | false =>
    simp only [Bool.false_eq_true, if_false]
    refine or_congr_right ?_
    cases content b (g.resolveKey key) <;> simp [GcsObject.version]

/-- A write under a key of the tenant. -/
lemma Shows.write (h : Shows g content b s) (hk : key ≠ []) {o : Option GcsObject} {t : Shelf}
    (hcontent : content b' = Function.update (content b) (g.resolveKey key) o)
    (hversion : t.version = Function.update s.version key (o.map GcsObject.version))
    (hgiven : ∀ o' ∈ o, Given o'.generation) : Shows g content b' t := by
  have hlook : ∀ key', content b' (g.base ++ key') =
      if key' = key then o else content b (g.base ++ key') := by
    intro key'
    rw [hcontent, resolveKey_eq hk]
    by_cases he : key' = key
    · rw [he, Function.update_self, if_pos rfl]
    · rw [Function.update_of_ne (by simpa using he), if_neg he]
  refine ⟨fun key' => ?_, ?_, fun key' o' ho => ?_⟩
  · rw [hversion, hlook]
    by_cases he : key' = key
    · rw [he, Function.update_self, if_pos rfl]
    · rw [Function.update_of_ne he, if_neg he, h.shown]
  · have hempty := hlook []
    rw [List.append_nil, if_neg (Ne.symm hk), h.nonempty] at hempty
    exact hempty
  · rw [hlook] at ho
    split at ho
    · exact hgiven o' ho
    · exact h.given key' o' ho

/-- A change of a name that is not the tenant's. -/
lemma Shows.foreign (h : Shows g content b s) {name : Bytes} (hn : ¬ g.InTenant name)
    (hcontent : ∀ name', name' ≠ name → content b' name' = content b name') :
    Shows g content b' s := by
  have hlook : ∀ key, content b' (g.base ++ key) = content b (g.base ++ key) := by
    intro key
    refine hcontent _ ?_
    rintro rfl
    exact hn (inTenant_iff.mpr (List.prefix_append _ _))
  refine ⟨fun key => by rw [hlook, h.shown], ?_, fun key o ho => h.given key o (hlook key ▸ ho)⟩
  have hempty := hlook []
  rwa [List.append_nil, h.nonempty] at hempty

lemma Shows.put_step (h : Shows g content b s) (hV : V.Lawful content) (hs : s.Wf) (hk : key ≠ [])
    {gen : ℤ} (hgen : Given gen) (hfresh : (key, formatInt gen) ∉ s.issued) :
    ∃ t, s.Step gcsCanon (.put key data cond) (g.answer V b gen (.put key data cond)).1 t ∧
      Shows g content (g.answer V b gen (.put key data cond)).2 t := by
  have hgiven : ∀ o, content b (g.resolveKey key) = some o → Given o.generation := fun o ho =>
    h.given key o (by rwa [resolveKey_eq hk] at ho)
  have hadmits := h.admits_iff hs hk cond
  obtain ⟨e, he, hput⟩ | ⟨conds, hc, hcase⟩ := put_cases g hV b key data cond gen
  · obtain ⟨rfl, habs, hne, hnone⟩ := conditions_error he
    simp only [Store.answer, hput]
    exact ⟨s, .malformed key data cond habs hne hnone, h⟩
  obtain ⟨hknown, hmet⟩ := conditions_met hc hgiven
  rw [← hadmits] at hmet
  obtain ⟨hrefused, hput⟩ | ⟨haccepted, b', hput, hcontent⟩ := hcase
  · simp only [Store.answer, hput]
    have hno : ¬ s.Admits gcsCanon key cond := fun hok => hrefused (hmet.mpr hok)
    refine ⟨s, .refused key data cond hno fun habs => hknown habs fun hnil => ?_, h⟩
    exact hno (hadmits.mpr (by simp [habs, hnil]))
  · simp only [Store.answer, hput]
    refine ⟨_, .put key data cond _ (hmet.mp haccepted) hfresh hgen.canon, ?_⟩
    refine h.write (o := some ⟨data, gen⟩) hk hcontent (hs.version_put ..) fun o' ho' => ?_
    cases ho'
    exact hgen

end Calls

instance (trace : List StoreEvent) (gen : ℤ) : DecidablePred (Fresh trace gen)
  | .put key _ _ =>
    inferInstanceAs (Decidable ((0 < gen ∧ gen < 2 ^ 63) ∧
      (key, formatInt gen) ∉ trace.filterMap StoreEvent.issue))
  | .stat _ | .get _ | .readRange _ _ _ | .exists _ | .delete _ | .list _ _ _ =>
    inferInstanceAs (Decidable True)

instance (g : Store) (t : Recorded σ StoreEvent) : DecidablePred (g.Served t)
  | .call r gen => inferInstanceAs (Decidable (Keyed r ∧ Fresh t.reports gen r))
  | .foreignWrite name _ _ | .foreignDelete name => inferInstanceAs (Decidable (¬ g.InTenant name))

end CloudyNeigh.GcsStore
