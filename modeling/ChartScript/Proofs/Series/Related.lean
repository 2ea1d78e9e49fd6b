import ChartScript.Series.Study
import Mathlib.Data.List.Basic
import Mathlib.Data.List.Forall2
/-!
# Related series

There are few ways in which series are computed from series, and everything else is put together from
these. A relation between series that each of them preserves is preserved by every study: applied to
related series, and to bars whose series are related, a study yields related results. Lengths, cuts
and delays are such relations.
-/
namespace ChartScript

open List

namespace Series

/-- A relation between series that every way of computing series from series preserves. -/
structure Respected (R : Series → Series → Prop) : Prop where
  rolling : ∀ {s t}, R s t → ∀ length f, R (s.rolling length f) (t.rolling length f)
  rollingPair : ∀ {s t s' t'}, R s t → R s' t' → ∀ length f,
    R (s.rollingPair s' length f) (t.rollingPair t' length f)
  pivots : ∀ {s t}, R s t → ∀ beats left right,
    R (ofValues (scanHistory (pivot? beats left right) s.values))
      (ofValues (scanHistory (pivot? beats left right) t.values))
  smooth : ∀ {s t}, R s t → ∀ length alpha, R (s.smooth length alpha) (t.smooth length alpha)
  cum : ∀ {s t}, R s t → R s.cum t.cum
  shift : ∀ {s t}, R s t → ∀ back, R (s.shift back) (t.shift back)
  crossing : ∀ {s t s' t'}, R s t → R s' t' → ∀ test, R (crossing test s s') (crossing test t t')
  apply : ∀ {s t}, R s t → ∀ f, R (Operand.apply f s) (Operand.apply f t)
  binary : ∀ {s t s' t'}, R s t → R s' t' → ∀ f, R (Operand.binary f s s') (Operand.binary f t t')
  binaryNumber : ∀ {s t}, R s t → ∀ (x : Float) f, R (Operand.binary f s x) (Operand.binary f t x)

theorem zipWith_eq_apply2 (f : Float → Float → Float) (s t : Series) : zipWith f s t = Operand.apply2 f s t := by
  have hsome : (fun x y : Option Float => x.bind fun x => y.map (f x)) =
      fun x y => x.bind fun x => y.bind fun y => some (f x y) := by
    funext x y
    cases x <;> cases y <;> rfl
  rw [zipWith, hsome]
  rfl

namespace Respected

variable {R : Series → Series → Prop} (hR : Respected R) {s t s' t' : Series}
include hR

theorem sma (h : R s t) (length : Nat) : R (s.sma length) (t.sma length) :=
  hR.rolling h length _

theorem wma (h : R s t) (length : Nat) : R (s.wma length) (t.wma length) :=
  hR.rolling h length _

theorem highest (h : R s t) (length : Nat) : R (s.highest length) (t.highest length) :=
  hR.rolling h length _

theorem lowest (h : R s t) (length : Nat) : R (s.lowest length) (t.lowest length) :=
  hR.rolling h length _

theorem ema (h : R s t) (length : Nat) : R (s.ema length) (t.ema length) :=
  hR.smooth h length _

theorem rma (h : R s t) (length : Nat) : R (s.rma length) (t.rma length) :=
  hR.smooth h length _

theorem add (h : R s t) (h' : R s' t') : R (Operand.add s s') (Operand.add t t') :=
  hR.binary h h' _

theorem sub (h : R s t) (h' : R s' t') : R (Operand.sub s s') (Operand.sub t t') :=
  hR.binary h h' _

theorem mul (h : R s t) (h' : R s' t') : R (Operand.mul s s') (Operand.mul t t') :=
  hR.binary h h' _

theorem div (h : R s t) (h' : R s' t') : R (Operand.div s s') (Operand.div t t') :=
  hR.binary h h' _

theorem scale (h : R s t) (x : Float) : R (Operand.mul s x) (Operand.mul t x) :=
  hR.binaryNumber h x _

theorem zipWith (h : R s t) (h' : R s' t') (f : Float → Float → Float) :
    R (Series.zipWith f s s') (Series.zipWith f t t') := by
  rw [zipWith_eq_apply2, zipWith_eq_apply2]
  exact hR.binary h h' _

end Respected

end Series

/-- Bars of which all series are related: the prices, and the series that are computed from whole
bars. -/
structure Bars.Related (R : Series → Series → Prop) (b b' : Bars) : Prop where
  source : ∀ p, R (b.source p) (b'.source p)
  tr : ∀ ownRangeFirst, R (b.tr ownRangeFirst) (b'.tr ownRangeFirst)
  obv : R b.obv b'.obv
  accdist : R b.accdist b'.accdist
  sar : ∀ params, R (b.sar params) (b'.sar params)
  line : ∀ factor length, R (b.supertrend factor length).1 (b'.supertrend factor length).1
  direction : ∀ factor length, R (b.supertrend factor length).2 (b'.supertrend factor length).2
  mfi : ∀ {s t}, R s t → ∀ length, R (b.mfi s length) (b'.mfi t length)

namespace Bars.Related

variable {R : Series → Series → Prop} {b b' : Bars}

theorem atr (h : b.Related R b') (hR : Series.Respected R) (length : Nat) : R (b.atr length) (b'.atr length) :=
  hR.rma (h.tr true) length

theorem dmi (h : b.Related R b') (hR : Series.Respected R) (length smoothing : Nat) :
    R (b.dmi length smoothing).1 (b'.dmi length smoothing).1 ∧
    R (b.dmi length smoothing).2.1 (b'.dmi length smoothing).2.1 ∧
    R (b.dmi length smoothing).2.2 (b'.dmi length smoothing).2.2 := by
  have hhigh : R b.high b'.high := h.source _
  have hlow : R b.low b'.low := h.source _
  have hup := hR.sub hhigh (hR.shift hhigh 1)
  have hdown := hR.sub (hR.shift hlow 1) hlow
  have hshare := fun f => hR.scale (hR.div (hR.rma (hR.zipWith hup hdown f) length) (h.atr hR length)) 100.0
  exact ⟨hshare _, hshare _, hR.scale (hR.rma (hR.zipWith (hshare _) (hshare _) _) smoothing) 100.0⟩

end Bars.Related

namespace Study

/-- The series that a study is applied to. -/
def arguments : Study → List Series
  | sma s _ | ema s _ | wma s _ | rma s _ | vwma s _ | hma s _ | alma s _ _ _ | dema s _ | tema s _
  | rsi s _ | macd s _ _ _ | cci s _ | mfi s _ | roc s _ | mom s _ | bb s _ _ | kc s _ _ _
  | stdev s _ | variance s _ | range s _ | vwap s | highest s _ | lowest s _ | change s _ | cum s
  | median s _ | mode s _ | percentRank s _ | pivothigh s _ _ | pivotlow s _ _ => [s]
  | cross s t | crossover s t | crossunder s t | correlation s t _ | covariance s t _ => [s, t]
  | stoch s high low _ _ => [s, high, low]
  | wpr _ | tr _ | atr _ | obv | accdist | dmi _ _ | adx _ _ | supertrend _ _ | sar _ => []

/-- The same study of other series. -/
def mapSeries (f : Series → Series) : Study → Study
  | sma s n => sma (f s) n
  | ema s n => ema (f s) n
  | wma s n => wma (f s) n
  | rma s n => rma (f s) n
  | vwma s n => vwma (f s) n
  | hma s n => hma (f s) n
  | alma s n offset sigma => alma (f s) n offset sigma
  | dema s n => dema (f s) n
  | tema s n => tema (f s) n
  | rsi s n => rsi (f s) n
  | macd s fast slow signal => macd (f s) fast slow signal
  | stoch s high low n smoothing => stoch (f s) (f high) (f low) n smoothing
  | cci s n => cci (f s) n
  | mfi s n => mfi (f s) n
  | roc s n => roc (f s) n
  | mom s n => mom (f s) n
  | bb s n factor => bb (f s) n factor
  | kc s n factor useTrueRange => kc (f s) n factor useTrueRange
  | stdev s n => stdev (f s) n
  | variance s n => variance (f s) n
  | range s n => range (f s) n
  | vwap s => vwap (f s)
  | cross s t => cross (f s) (f t)
  | crossover s t => crossover (f s) (f t)
  | crossunder s t => crossunder (f s) (f t)
  | highest s n => highest (f s) n
  | lowest s n => lowest (f s) n
  | change s n => change (f s) n
  | cum s => cum (f s)
  | correlation s t n => correlation (f s) (f t) n
  | covariance s t n => covariance (f s) (f t) n
  | median s n => median (f s) n
  | mode s n => mode (f s) n
  | percentRank s n => percentRank (f s) n
  | pivothigh s left right => pivothigh (f s) left right
  | pivotlow s left right => pivotlow (f s) left right
  | study => study

/-- Whether the result depends on the bars, not only on the given series. -/
def readsBars : Study → Bool
  | vwma .. | mfi .. | wpr .. | tr .. | atr .. | kc .. | vwap .. | obv | accdist | dmi .. | adx ..
  | supertrend .. | sar .. => true
  | _ => false

/-- The number of series that a study yields. -/
def resultCount : Study → Nat
  | stoch .. | supertrend .. => 2
  | macd .. | bb .. | kc .. | dmi .. => 3
  | _ => 1

theorem length_run (b : Bars) (study : Study) : (study.run b).length = study.resultCount := by
  cases study <;> rfl

variable {R : Series → Series → Prop} {b b' : Bars} {f : Series → Series}

theorem forall₂_pair {r r' : Series × Series} (h : R r.1 r'.1) (h' : R r.2 r'.2) :
    Forall₂ R (pair r) (pair r') :=
  .cons h (.cons h' .nil)

theorem forall₂_triple {r r' : Series × Series × Series}
    (h : R r.1 r'.1 ∧ R r.2.1 r'.2.1 ∧ R r.2.2 r'.2.2) : Forall₂ R (triple r) (triple r') :=
  .cons h.1 (.cons h.2.1 (.cons h.2.2 .nil))

/-- A relation that is respected and holds between the arguments holds between the results. Of the
bars nothing is asked if the study does not read them. -/
theorem run_related (hR : Series.Respected R) (study : Study) (hargument : ∀ s ∈ study.arguments, R s (f s))
    (hbars : study.readsBars = true → b.Related R b') :
    Forall₂ R (study.run b) ((study.mapSeries f).run b') := by
  have single : ∀ {r r' : Series}, R r r' → Forall₂ R [r] [r'] := fun hr => .cons hr .nil
  cases study with
  -- functions of windows
  | sma s n | wma s n | cci s n | stdev s n | variance s n | highest s n | lowest s n | median s n
  | mode s n => exact single (hR.rolling (hargument s mem_cons_self) n _)
  | alma s n offset sigma => exact single (hR.rolling (hargument s mem_cons_self) n _)
  | percentRank s n => exact single (hR.rolling (hargument s mem_cons_self) _ _)
  | correlation s t n | covariance s t n =>
    have ht := hargument t (mem_cons_of_mem s mem_cons_self)
    exact single (hR.rollingPair (hargument s mem_cons_self) ht n _)
  | pivothigh s left right | pivotlow s left right =>
    exact single (hR.pivots (hargument s mem_cons_self) _ left right)
  -- steps that hand on a state
  | ema s n | rma s n => exact single (hR.smooth (hargument s mem_cons_self) n _)
  | cum s => exact single (hR.cum (hargument s mem_cons_self))
  | cross s t | crossover s t | crossunder s t =>
    have ht := hargument t (mem_cons_of_mem s mem_cons_self)
    exact single (hR.crossing (hargument s mem_cons_self) ht _)
  | tr ownRangeFirst => exact single ((hbars rfl).tr ownRangeFirst)
  | obv => exact single (hbars rfl).obv
  | accdist => exact single (hbars rfl).accdist
  | sar params => exact single ((hbars rfl).sar params)
  | supertrend factor n => exact forall₂_pair ((hbars rfl).line factor n) ((hbars rfl).direction factor n)
  -- compositions
  | mom s n | change s n =>
    have hs := hargument s mem_cons_self
    exact single (hR.sub hs (hR.shift hs n))
  | roc s n =>
    have hs := hargument s mem_cons_self
    have hpast := hR.shift hs n
    exact single (hR.scale (hR.div (hR.sub hs hpast) hpast) 100.0)
  | range s n =>
    have hs := hargument s mem_cons_self
    exact single (hR.sub (hR.highest hs n) (hR.lowest hs n))
  | hma s n =>
    have hs := hargument s mem_cons_self
    have hraw := hR.sub (hR.scale (hR.wma hs (n / 2)) 2.0) (hR.wma hs n)
    exact single (hR.wma hraw _)
  | dema s n =>
    have h₁ := hR.ema (hargument s mem_cons_self) n
    have h₂ := hR.ema h₁ n
    exact single (hR.sub (hR.scale h₁ 2.0) h₂)
  | tema s n =>
    have h₁ := hR.ema (hargument s mem_cons_self) n
    have h₂ := hR.ema h₁ n
    have h₃ := hR.ema h₂ n
    exact single (hR.add (hR.sub (hR.scale h₁ 3.0) (hR.scale h₂ 3.0)) h₃)
  | rsi s n =>
    have hs := hargument s mem_cons_self
    have hchange := hR.sub hs (hR.shift hs 1)
    have hgains := hR.rma (hR.apply hchange (Number.larger · 0.0)) n
    have hlosses := hR.rma (hR.apply hchange fun c => Number.larger (-c) 0.0) n
    exact single (hR.zipWith hgains hlosses Series.strength)
  | macd s fast slow signal =>
    have hs := hargument s mem_cons_self
    have hline := hR.sub (hR.ema hs fast) (hR.ema hs slow)
    have hsignal := hR.ema hline signal
    exact forall₂_triple ⟨hline, hsignal, hR.sub hline hsignal⟩
  | stoch s high low n smoothing =>
    have hs := hargument s mem_cons_self
    have htop := hR.highest (hargument high (by simp [arguments])) n
    have hbottom := hR.lowest (hargument low (by simp [arguments])) n
    have hshare := hR.scale (hR.div (hR.sub hs hbottom) (hR.sub htop hbottom)) 100.0
    exact forall₂_pair hshare (hR.sma hshare smoothing)
  | bb s n factor =>
    have hs := hargument s mem_cons_self
    have hbasis := hR.sma hs n
    have hwidth := hR.scale (hR.rolling hs n fun w => some (Number.variance w).sqrt) factor
    exact forall₂_triple ⟨hbasis, hR.add hbasis hwidth, hR.sub hbasis hwidth⟩
  -- compositions with series of the bars
  | vwma s n =>
    have hvolume : R b.volume b'.volume := (hbars rfl).source _
    have hflow := hR.mul (hargument s mem_cons_self) hvolume
    exact single (hR.div (hR.sma hflow n) (hR.sma hvolume n))
  | vwap s =>
    have hvolume : R b.volume b'.volume := (hbars rfl).source _
    have hflow := hR.mul (hargument s mem_cons_self) hvolume
    exact single (hR.div (hR.cum hflow) (hR.cum hvolume))
  | mfi s n => exact single ((hbars rfl).mfi (hargument s mem_cons_self) n)
  | wpr n =>
    have hclose : R b.close b'.close := (hbars rfl).source _
    have htop : R (b.high.highest n) (b'.high.highest n) := hR.highest ((hbars rfl).source _) n
    have hbottom : R (b.low.lowest n) (b'.low.lowest n) := hR.lowest ((hbars rfl).source _) n
    exact single (hR.scale (hR.div (hR.sub hclose htop) (hR.sub htop hbottom)) 100.0)
  | atr n => exact single ((hbars rfl).atr hR n)
  | kc s n factor useTrueRange =>
    have hbasis := hR.ema (hargument s mem_cons_self) n
    have hband : ∀ {r r' : Series}, R r r' →
        Forall₂ R (triple (Series.band (s.ema n) (Operand.mul (r.ema n) factor)))
          (triple (Series.band ((f s).ema n) (Operand.mul (r'.ema n) factor))) := by
      intro r r' hr
      have hwidth := hR.scale (hR.ema hr n) factor
      exact forall₂_triple ⟨hbasis, hR.add hbasis hwidth, hR.sub hbasis hwidth⟩
    cases useTrueRange with
    | true => exact hband ((hbars rfl).tr true)
    | false => exact hband (hR.sub ((hbars rfl).source _) ((hbars rfl).source _))
  | dmi n smoothing => exact forall₂_triple ((hbars rfl).dmi hR n smoothing)
  | adx n smoothing => exact single ((hbars rfl).dmi hR n smoothing).2.2

theorem map_eq_of_forall₂ {rs ts : List Series} (h : Forall₂ (f · = ·) rs ts) : rs.map f = ts := by
  rwa [← forall₂_map_left_iff, forall₂_eq_eq_eq] at h

end Study

end ChartScript
