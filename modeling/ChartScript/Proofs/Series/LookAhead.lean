import ChartScript.Proofs.Series.Related
/-!
# No look-ahead

A study or an operation that is given only the first bars yields the first values of its result on
all bars: no value depends on a later bar. It is enough to show this for the few ways in which series
are computed, namely steps that hand on a state and functions of the values of each bar: being cut is
a relation that they respect.
-/
namespace ChartScript

open List

/-! ## The first bars -/

def Series.take (s : Series) (k : Nat) : Series where
  values := s.values.take k
  finite x hx := s.finite x (mem_of_mem_take hx)

def Bars.take (b : Bars) (k : Nat) : Bars :=
  ⟨b.bars.take k⟩

def Operand.take (k : Nat) : Operand → Operand
  | .series s => .series (s.take k)
  | a => a

/-! ## Steps and functions of single bars -/

theorem scan_take {σ α β : Type} (step : σ → α → σ × β) (state : σ) (items : List α) (k : Nat) :
    (scan step state items).take k = scan step state (items.take k) := by
  induction items generalizing state k with
  | nil => simp [scan]
  | cons a rest ih =>
    cases k with
    | zero => rfl
    | succ k => simp [scan, ih]

theorem scanHistory_take {α β : Type} (f : List α → β) (items : List α) (k : Nat) :
    (scanHistory f items).take k = scanHistory f (items.take k) :=
  scan_take _ _ items k

namespace Series

@[simp] theorem size_take (s : Series) (k : Nat) : (s.take k).size = min k s.size :=
  length_take

theorem ofValues_take (values : List (Option Float)) (k : Nat) :
    (ofValues values).take k = ofValues (values.take k) :=
  Series.ext map_take.symm

theorem na_take (s : Series) (k : Nat) : (na s.size).take k = na (s.take k).size := by
  apply Series.ext
  simp [na, Series.take, size, take_replicate]

theorem padded_take (s : Series) (count k : Nat) : (s.padded count).take k = (s.take k).padded (min k count) := by
  have hrest : (List.replicate (count - s.size) (none : Option Float)).take (k - min count s.size) =
      List.replicate (min k count - min k s.size) none := by
    rw [take_replicate]
    congr 1
    omega
  simp only [padded, take_append, take_take, length_take, size_take]
  rw [← size, hrest]
  simp [Series.take, take_take]

@[simp] theorem get?_take (s : Series) {k bar : Nat} (h : bar < k) : (s.take k).get? bar = s.get? bar := by
  rw [get?, get?, Series.take, getElem?_take_of_lt h]

@[simp] theorem shift_take (s : Series) (back k : Nat) : (s.shift back).take k = (s.take k).shift back := by
  simp only [shift, ofValues_take, scanHistory_take]
  rfl

@[simp] theorem rolling_take (s : Series) (length : Nat) (f : List Float → Option Float) (k : Nat) :
    (s.rolling length f).take k = (s.take k).rolling length f := by
  simp only [rolling, ofValues_take, scanHistory_take]
  rfl

@[simp] theorem rollingPair_take (s t : Series) (length : Nat) (f : List (Float × Float) → Option Float) (k : Nat) :
    (s.rollingPair t length f).take k = (s.take k).rollingPair (t.take k) length f := by
  simp only [rollingPair, ofValues_take, scanHistory_take, List.zip, take_zipWith]
  rfl

@[simp] theorem smooth_take (s : Series) (length : Nat) (alpha : Float) (k : Nat) :
    (s.smooth length alpha).take k = (s.take k).smooth length alpha := by
  simp only [smooth, ofValues_take, scan_take]
  rfl

@[simp] theorem cum_take (s : Series) (k : Nat) : s.cum.take k = (s.take k).cum := by
  simp only [cum, ofValues_take, scan_take]
  rfl

theorem pivots_take (s : Series) (beats : Float → Float → Bool) (left right k : Nat) :
    (ofValues (scanHistory (pivot? beats left right) s.values)).take k =
    ofValues (scanHistory (pivot? beats left right) (s.take k).values) := by
  rw [ofValues_take, scanHistory_take]
  rfl

@[simp] theorem crossing_take (test : Float × Float → Float × Float → Bool) (s t : Series) (k : Nat) :
    (crossing test s t).take k = crossing test (s.take k) (t.take k) := by
  simp only [crossing, ofValues_take, scanHistory_take, List.zip, take_zipWith, padded_take,
    size_take, Nat.min_max_distrib_left]

end Series

namespace Operand

@[simp] theorem size_take (a : Operand) (k : Nat) : (a.take k).size = min k a.size := by
  cases a with
  | series s => exact s.size_take k
  | number x => simp [size, take]
  | flag b => simp [size, take]

theorem values_take (a : Operand) (count k : Nat) : (a.values count).take k = (a.take k).values (min k count) := by
  cases a with
  | series s => exact s.padded_take count k
  | number x => simp [values, take]
  | flag b => simp [values, take]

theorem valueAt_take (a : Operand) {k bar : Nat} (h : bar < k) : (a.take k).valueAt bar = a.valueAt bar := by
  cases a with
  | series s => exact s.get?_take h
  | number x => rfl
  | flag b => rfl

@[simp] theorem mapValues_take (f : Option Float → Option Float) (a : Operand) (k : Nat) :
    (mapValues f a).take k = mapValues f (a.take k) := by
  simp only [mapValues, Series.ofValues_take, ← map_take, values_take, size_take]

@[simp] theorem zipValues_take (f : Option Float → Option Float → Option Float) (a b : Operand)
    (k : Nat) : (zipValues f a b).take k = zipValues f (a.take k) (b.take k) := by
  simp only [zipValues, Series.ofValues_take, take_zipWith, values_take, size_take, Nat.min_max_distrib_left]

@[simp] theorem apply_take (f : Float → Float) (a : Operand) (k : Nat) : (apply f a).take k = apply f (a.take k) :=
  mapValues_take _ a k

@[simp] theorem binary_take (f : Float → Float → Option Float) (a b : Operand) (k : Nat) :
    (binary f a b).take k = binary f (a.take k) (b.take k) :=
  zipValues_take _ a b k

@[simp] theorem apply2_take (f : Float → Float → Float) (a b : Operand) (k : Nat) :
    (apply2 f a b).take k = apply2 f (a.take k) (b.take k) :=
  binary_take _ a b k

@[simp] theorem select_take (condition a b : Operand) (k : Nat) :
    (select condition a b).take k = select (condition.take k) (a.take k) (b.take k) := by
  simp only [select, Series.ofValues_take, take_zipWith, List.zip, values_take, size_take, Nat.min_max_distrib_left]

@[simp] theorem holdFirst_take (a : Operand) (k : Nat) : a.holdFirst.take k = (a.take k).holdFirst := by
  rw [holdFirst, mapValues_take]
  cases k with
  | zero =>
    have hnone : (a.take 0).values (a.take 0).size = [] := by
      rw [size_take, Nat.zero_min]
      cases a with
      | series s => simp [take, values, Series.padded]
      | number x => rfl
      | flag b => rfl
    simp only [holdFirst, mapValues, hnone, map_nil]
  | succ k => rw [holdFirst, a.valueAt_take (Nat.succ_pos k)]

end Operand

/-! ## Operations -/

def Operation.take (k : Nat) : Operation → Operation
  | add a b => add (a.take k) (b.take k)
  | sub a b => sub (a.take k) (b.take k)
  | mul a b => mul (a.take k) (b.take k)
  | div a b => div (a.take k) (b.take k)
  | rem a b => rem (a.take k) (b.take k)
  | gt a b => gt (a.take k) (b.take k)
  | ge a b => ge (a.take k) (b.take k)
  | lt a b => lt (a.take k) (b.take k)
  | le a b => le (a.take k) (b.take k)
  | eq a b => eq (a.take k) (b.take k)
  | ne a b => ne (a.take k) (b.take k)
  | and a b => and (a.take k) (b.take k)
  | or a b => or (a.take k) (b.take k)
  | not a => not (a.take k)
  | neg a => neg (a.take k)
  | select condition a b => select (condition.take k) (a.take k) (b.take k)
  | nz a b => nz (a.take k) (b.take k)
  | isNa a => isNa (a.take k)
  | holdFirst a => holdFirst (a.take k)
  | apply f a => apply f (a.take k)
  | apply2 f a b => apply2 f (a.take k) (b.take k)

theorem Operation.run_take (op : Operation) (k : Nat) : op.run.take k = (op.take k).run := by
  cases op with
  | add a b | sub a b | mul a b | apply2 _ a b => exact Operand.apply2_take _ a b k
  | div a b | rem a b => exact Operand.binary_take _ a b k
  | gt a b | ge a b | lt a b | le a b | eq a b | ne a b => exact Operand.binary_take _ a b k
  | and a b | or a b | nz a b => exact Operand.zipValues_take _ a b k
  | not a | isNa a => exact Operand.mapValues_take _ a k
  | neg a | apply _ a => exact Operand.apply_take _ a k
  | select condition a b => exact Operand.select_take condition a b k
  | holdFirst a => exact Operand.holdFirst_take a k

/-! ## Indicators -/

namespace Bars

@[simp] theorem source_take (b : Bars) (p : PriceSource) (k : Nat) : (b.source p).take k = (b.take k).source p := by
  simp [source, Series.ofNumbers, Series.ofValues_take, Bars.take, map_take]

@[simp] theorem tr_take (b : Bars) (ownRangeFirst : Bool) (k : Nat) :
    (b.tr ownRangeFirst).take k = (b.take k).tr ownRangeFirst := by
  simp only [tr, Series.ofValues_take, scan_take]
  rfl

@[simp] theorem obv_take (b : Bars) (k : Nat) : b.obv.take k = (b.take k).obv := by
  simp only [obv, Series.ofValues_take, scan_take]
  rfl

@[simp] theorem accdist_take (b : Bars) (k : Nat) : b.accdist.take k = (b.take k).accdist := by
  simp only [accdist, Series.ofValues_take, scan_take]
  rfl

@[simp] theorem sar_take (b : Bars) (p : StopParams) (k : Nat) : (b.sar p).take k = (b.take k).sar p := by
  simp only [sar, Series.ofValues_take, scan_take]
  rfl

end Bars

theorem Series.respected_take (k : Nat) : Respected (·.take k = ·) where
  rolling h length f := h ▸ rolling_take _ length f k
  rollingPair h h' length f := h ▸ h' ▸ rollingPair_take _ _ length f k
  pivots h beats left right := h ▸ pivots_take _ beats left right k
  smooth h length alpha := h ▸ smooth_take _ length alpha k
  cum h := h ▸ cum_take _ k
  shift h back := h ▸ shift_take _ back k
  crossing h h' test := h ▸ h' ▸ crossing_take test _ _ k
  apply h f := h ▸ Operand.apply_take f _ k
  binary h h' f := h ▸ h' ▸ Operand.binary_take f _ _ k
  binaryNumber h x f := h ▸ Operand.binary_take f _ x k

namespace Bars

theorem supertrend_take (b : Bars) (factor : Float) (length k : Nat) :
    Prod.map (·.take k) (·.take k) (b.supertrend factor length) = (b.take k).supertrend factor length := by
  have hrange : (b.atr length).values.take k = ((b.take k).atr length).values := by
    rw [atr, atr, ← tr_take]
    exact congrArg Series.values ((b.tr true).smooth_take length _ k)
  have hmiddle : b.hl2.values.take k = (b.take k).hl2.values :=
    congrArg Series.values (b.source_take (.average .hl2) k)
  simp only [supertrend, Prod.map, Series.ofValues_take, ← map_take, scan_take, List.zip,
    take_zipWith, hrange, hmiddle]
  rfl

theorem mfi_take (b : Bars) (s : Series) (length k : Nat) :
    (b.mfi s length).take k = (b.take k).mfi (s.take k) length := by
  simp only [mfi, volume, Series.zipWith_eq_apply2, Operand.sub, Operand.mul, Operand.gt, Operand.lt,
    Operand.compare, Operand.isNa, Operand.apply2_take, Operand.select_take, Operand.mapValues_take,
    Operand.binary_take, Operand.take, Series.rolling_take, Series.na_take, Series.shift_take, source_take]

theorem related_take (b : Bars) (k : Nat) : b.Related (·.take k = ·) (b.take k) where
  source p := b.source_take p k
  tr ownRangeFirst := b.tr_take ownRangeFirst k
  obv := b.obv_take k
  accdist := b.accdist_take k
  sar params := b.sar_take params k
  line factor length := congrArg (·.1) (b.supertrend_take factor length k)
  direction factor length := congrArg (·.2) (b.supertrend_take factor length k)
  mfi h length := h ▸ b.mfi_take _ length k

end Bars

namespace Study

/-- The study of the first values of its series. -/
def take (k : Nat) : Study → Study :=
  mapSeries (·.take k)

theorem run_take (b : Bars) (study : Study) (k : Nat) :
    (study.run b).map (·.take k) = (study.take k).run (b.take k) :=
  map_eq_of_forall₂ (study.run_related (Series.respected_take k) (fun _ _ => rfl) fun _ => b.related_take k)

end Study

/-- Cutting bars and arguments to the first `k` bars cuts each of the results to its first `k` values,
in every study and in every operation. -/
theorem no_look_ahead (k : Nat) : (∀ (b : Bars) (study : Study),
      (study.run b).length = study.resultCount ∧
      (study.take k).run (b.take k) = (study.run b).map (·.take k)) ∧
    ∀ op : Operation, (op.take k).run = op.run.take k := by
  constructor
  · intro b study
    exact ⟨study.length_run b, (study.run_take b k).symm⟩
  · intro op
    exact (op.run_take k).symm

end ChartScript
