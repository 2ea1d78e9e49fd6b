import ChartScript.Proofs.Series.Related
/-!
# Aligned and finite results

A result has one entry for every bar, and no entry is infinite or not a number, whatever the prices
are. Infinities may well arise on the way, inside a sum or a state that is handed on; they are taken
out where a series is put together, and every result is put together there. The length of a result
follows from the few ways in which series are computed: having `n` entries is a relation that they
respect.
-/
namespace ChartScript

open List

@[simp] theorem length_scan {σ α β : Type} (step : σ → α → σ × β) (state : σ) (items : List α) :
    (scan step state items).length = items.length := by
  induction items generalizing state with
  | nil => rfl
  | cons a rest ih => simp [scan, ih]

@[simp] theorem length_scanHistory {α β : Type} (f : List α → β) (items : List α) :
    (scanHistory f items).length = items.length :=
  length_scan _ _ items

namespace Series

/-- An entry for each of `n` bars, which is nothing or a finite number. -/
structure Aligned (n : Nat) (s : Series) : Prop where
  size : s.size = n
  finite : ∀ x, some x ∈ s.values → x.isFinite = true

theorem Aligned.of_size {n : Nat} {s : Series} (h : s.size = n) : s.Aligned n :=
  ⟨h, s.finite⟩

@[simp] theorem size_ofValues (values : List (Option Float)) : (ofValues values).size = values.length :=
  length_map _

@[simp] theorem size_na (count : Nat) : (na count).size = count :=
  length_replicate

@[simp] theorem length_padded (s : Series) (count : Nat) : (s.padded count).length = count := by
  simp only [padded, size, length_append, length_take, length_replicate]
  omega

@[simp] theorem size_shift (s : Series) (back : Nat) : (s.shift back).size = s.size := by
  rw [shift, size_ofValues, length_scanHistory, size]

@[simp] theorem size_rolling (s : Series) (length : Nat) (f : List Float → Option Float) :
    (s.rolling length f).size = s.size := by
  rw [rolling, size_ofValues, length_scanHistory, size]

@[simp] theorem size_rollingPair (s t : Series) (length : Nat) (f : List (Float × Float) → Option Float) :
    (s.rollingPair t length f).size = min s.size t.size := by
  rw [rollingPair, size_ofValues, length_scanHistory, length_zip, size, size]

@[simp] theorem size_smooth (s : Series) (length : Nat) (alpha : Float) :
    (s.smooth length alpha).size = s.size := by
  rw [smooth, size_ofValues, length_scan, size]

@[simp] theorem size_cum (s : Series) : s.cum.size = s.size := by
  rw [cum, size_ofValues, length_scan, size]

@[simp] theorem size_crossing (test : Float × Float → Float × Float → Bool) (s t : Series) :
    (crossing test s t).size = max s.size t.size := by
  simp [crossing]

end Series

/-! ## Operations -/

namespace Operand

@[simp] theorem size_series (s : Series) : (series s).size = s.size := rfl

@[simp] theorem size_number (x : Float) : (number x).size = 0 := rfl

@[simp] theorem length_values (a : Operand) (count : Nat) : (a.values count).length = count := by
  cases a with
  | series s => exact s.length_padded count
  | number x => exact length_replicate
  | flag b => exact length_replicate

@[simp] theorem size_mapValues (f : Option Float → Option Float) (a : Operand) : (mapValues f a).size = a.size := by
  simp [mapValues]

@[simp] theorem size_zipValues (f : Option Float → Option Float → Option Float) (a b : Operand) :
    (zipValues f a b).size = max a.size b.size := by
  simp [zipValues]

@[simp] theorem size_apply (f : Float → Float) (a : Operand) : (apply f a).size = a.size :=
  size_mapValues _ a

@[simp] theorem size_binary (f : Float → Float → Option Float) (a b : Operand) :
    (binary f a b).size = max a.size b.size :=
  size_zipValues _ a b

@[simp] theorem size_apply2 (f : Float → Float → Float) (a b : Operand) : (apply2 f a b).size = max a.size b.size :=
  size_binary _ a b

@[simp] theorem size_select (condition a b : Operand) :
    (select condition a b).size = max condition.size (max a.size b.size) := by
  simp [select]

end Operand

namespace Operation

/-- What the operation is applied to. -/
def operands : Operation → List Operand
  | add a b | sub a b | mul a b | div a b | rem a b | gt a b | ge a b | lt a b | le a b | eq a b
  | ne a b | and a b | or a b | nz a b | apply2 _ a b => [a, b]
  | not a | neg a | isNa a | holdFirst a | apply _ a => [a]
  | select condition a b => [condition, a, b]

theorem size_run (op : Operation) : op.run.size = (op.operands.map Operand.size).foldr max 0 := by
  cases op with
  | add a b | sub a b | mul a b | apply2 _ a b => exact (Operand.size_apply2 _ a b).trans (by simp [operands])
  | div a b | rem a b | gt a b | ge a b | lt a b | le a b | eq a b | ne a b =>
    exact (Operand.size_binary _ a b).trans (by simp [operands])
  | and a b | or a b | nz a b => exact (Operand.size_zipValues _ a b).trans (by simp [operands])
  | not a | isNa a | holdFirst a => exact (Operand.size_mapValues _ a).trans (by simp [operands])
  | neg a | apply _ a => exact (Operand.size_apply _ a).trans (by simp [operands])
  | select condition a b => exact (Operand.size_select condition a b).trans (by simp [operands])

theorem longest_eq {operands : List Operand} {n : Nat} (h : ∀ s, .series s ∈ operands → s.size = n)
    (hsome : ∃ s, .series s ∈ operands) : (operands.map Operand.size).foldr max 0 = n := by
  have hle : ∀ a ∈ operands, a.size ≤ n := by
    intro a ha
    cases a with
    | series s => exact Nat.le_of_eq (h s ha)
    | number x => exact Nat.zero_le n
    | flag b => exact Nat.zero_le n
  apply Nat.le_antisymm
  · clear h hsome
    induction operands with
    | nil => exact Nat.zero_le n
    | cons a rest ih =>
      exact Nat.max_le.2 ⟨hle a mem_cons_self, ih fun c hc => hle c (mem_cons_of_mem a hc)⟩
  · obtain ⟨s, hs⟩ := hsome
    rw [← h s hs]
    clear h hle
    induction operands with
    | nil => cases hs
    | cons a rest ih =>
      rw [map_cons, foldr_cons]
      rcases mem_cons.1 hs with rfl | hs
      · exact Nat.le_max_left _ _
      · exact Nat.le_trans (ih hs) (Nat.le_max_right _ _)

theorem run_aligned (op : Operation) {n : Nat} (h : ∀ s, .series s ∈ op.operands → s.size = n)
    (hsome : ∃ s, .series s ∈ op.operands) : op.run.Aligned n :=
  .of_size (op.size_run.trans (longest_eq h hsome))

end Operation

theorem Operand.broadcast_aligned (a : Operand) (count : Nat) : (a.broadcast count).Aligned count :=
  .of_size (by simp [broadcast])

/-! ## Studies -/

theorem Series.respected_size (n : Nat) : Respected fun s _ => s.size = n where
  rolling h length f := (size_rolling _ length f).trans h
  rollingPair h h' length f := by rw [size_rollingPair, h, h', Nat.min_self]
  pivots h beats left right := (size_ofValues _).trans ((length_scanHistory _ _).trans h)
  smooth h length alpha := (size_smooth _ length alpha).trans h
  cum h := (size_cum _).trans h
  shift h back := (size_shift _ back).trans h
  crossing h h' test := by rw [size_crossing, h, h', Nat.max_self]
  apply h f := (Operand.size_apply f _).trans h
  binary h h' f := by rw [Operand.size_binary, Operand.size_series, Operand.size_series, h, h', Nat.max_self]
  binaryNumber h x f := by
    rw [Operand.size_binary, Operand.size_series, Operand.size_number, h, Nat.max_zero]

namespace Bars

theorem size_source (b : Bars) (p : PriceSource) : (b.source p).size = b.size := by
  simp [source, Series.ofNumbers, size]

theorem size_tr (b : Bars) (ownRangeFirst : Bool) : (b.tr ownRangeFirst).size = b.size := by
  simp [tr, size]

theorem length_trendSteps (b : Bars) (factor : Float) (length : Nat) :
    (scan (trendStep factor) {} (b.bars.zip ((b.atr length).values.zip b.hl2.values))).length = b.size := by
  have hrange : (b.atr length).values.length = b.size := (Series.size_smooth _ length _).trans (b.size_tr true)
  have hmiddle : b.hl2.values.length = b.size := b.size_source (.average .hl2)
  simp [hrange, hmiddle, size]

theorem related_size (b : Bars) : b.Related (fun s _ => s.size = b.size) b where
  source := b.size_source
  tr := b.size_tr
  obv := (Series.size_ofValues _).trans (length_scan _ _ _)
  accdist := (Series.size_ofValues _).trans (length_scan _ _ _)
  sar params := (Series.size_ofValues _).trans (length_scan _ _ _)
  line factor length := by
    rw [supertrend, Series.size_ofValues, length_map, b.length_trendSteps factor length]
  direction factor length := by
    rw [supertrend, Series.size_ofValues, length_map, b.length_trendSteps factor length]
  mfi h length := by
    have hvolume : b.volume.size = b.size := b.size_source _
    simp [mfi, Series.zipWith_eq_apply2, Operand.sub, Operand.mul, Operand.gt, Operand.lt,
      Operand.compare, Operand.isNa, h, hvolume]

end Bars

theorem Study.run_aligned (b : Bars) (study : Study) (h : ∀ s ∈ study.arguments, s.size = b.size) :
    ∀ r ∈ study.run b, r.Aligned b.size := by
  have hrun : Forall₂ (fun s _ => s.size = b.size) (study.run b) ((study.mapSeries id).run b) :=
    study.run_related (Series.respected_size b.size) h fun _ => b.related_size
  intro r hr
  obtain ⟨i, hi, rfl⟩ := mem_iff_getElem.1 hr
  exact .of_size (hrun.get hi (hrun.length_eq ▸ hi))

/-- Every result of a study whose series are as long as the bars, and of an operation whose series
are equally long, has an entry for each bar that is nothing or a finite number. A study has as many
results as it is to have. An operand that is spread over a given number of bars has that many. -/
theorem results_aligned : (∀ (b : Bars) (study : Study), (∀ s ∈ study.arguments, s.size = b.size) →
      (study.run b).length = study.resultCount ∧ ∀ r ∈ study.run b, r.Aligned b.size) ∧
    (∀ (op : Operation) (n : Nat), (∃ s, .series s ∈ op.operands) →
      (∀ s, .series s ∈ op.operands → s.size = n) → op.run.Aligned n) ∧
    ∀ (a : Operand) (count : Nat), (a.broadcast count).Aligned count := by
  refine ⟨?_, ?_, ?_⟩
  · intro b study h
    exact ⟨study.length_run b, study.run_aligned b h⟩
  · intro op n hsome h
    exact op.run_aligned h hsome
  · intro a count
    exact a.broadcast_aligned count

def wildBars : Bars :=
  ⟨[⟨1.0, 1.0 / 0.0, 0.0 / 0.0, 2.0, 10.0⟩, ⟨2.0, 3.0, -1.0 / 0.0, 0.0 / 0.0, 1.0 / 0.0⟩]⟩

def wildSeries : Series :=
  .ofValues [some (1.0 / 0.0), none]

theorem results_aligned_wild : (((Study.kc wildSeries 1 (1.0 / 0.0) true).run wildBars).length = 3 ∧
      ∀ r ∈ (Study.kc wildSeries 1 (1.0 / 0.0) true).run wildBars, r.Aligned 2) ∧
    (Operation.select (.flag true) (.series wildSeries) (.number (0.0 / 0.0))).run.Aligned 2 ∧
    ((Operand.number (1.0 / 0.0)).broadcast 3).Aligned 3 := by
  refine ⟨?_, ?_, ?_⟩
  · apply results_aligned.1 wildBars
    intro s hs
    rw [mem_singleton.1 hs]
    rfl
  · apply results_aligned.2.1
    · exact ⟨wildSeries, by simp [Operation.operands]⟩
    · intro s hs
      have h : s = wildSeries := by simpa [Operation.operands] using hs
      rw [h]
      rfl
  · exact results_aligned.2.2 _ 3

end ChartScript
