import Mathlib.Algebra.Order.Ring.Nat
import Mathlib.Data.List.Basic

/-!
# Histograms (ngx_wa_histogram.c)

`bin_log2_upper_bound` (10-26), `histogram_grow` (29-76), `histogram_custom_bin` (79-96),
`histogram_log2_bin` (99-141), `ngx_wa_metrics_histogram_add_locked` (182-237),
`ngx_wa_metrics_histogram_record` (240-270), `ngx_wa_metrics_histogram_get` (273-308) and
`ngx_wa_metrics_histogram_set_buffer` (ngx_wa_metrics.h 112-121). `bins` is what was
allocated; a function gives `none` where it reads or writes a bin beyond that.
-/

namespace NgxWasm.Metrics

/-- `NGX_MAX_UINT32_VALUE`. -/
def maxUint32 : ℕ := 4294967295

def binsInit : ℕ := 5
def binsMax : ℕ := 18
def binsIncrement : ℕ := 4

inductive HistogramType where
  | log2
  | custom
  deriving Repr, DecidableEq

structure Bin where
  upperBound : ℕ
  count : ℕ
  deriving Repr, DecidableEq

structure Histogram where
  hType : HistogramType
  nBins : ℕ
  sum : ℕ
  bins : List Bin
  deriving Repr, DecidableEq

/-! ### Bounds -/

/-- `for (n = n - 1; n >>= 1; upper_bound <<= 1)`, at most 31 times. -/
def shiftBound : ℕ → ℕ → ℕ → ℕ
  | 0, _, upperBound => upperBound
  | fuel + 1, n, upperBound =>
    if n / 2 = 0 then upperBound else shiftBound fuel (n / 2) (upperBound * 2 % 2 ^ 32)

def binLog2UpperBound (n : ℕ) : ℕ :=
  if n ≤ 1 then 1
  else if maxUint32 / 2 < n then maxUint32
  else shiftBound 31 (n - 1) 2

/-! ### Bins -/

/-- A new object for `h`; `alloc` says that the slab has memory for it. -/
def histogramGrow (h : Histogram) (alloc : Bool) : Option Histogram :=
  if h.nBins = binsMax then none
  else if alloc then
    let n := min binsIncrement (binsMax - h.nBins)
    some { h with nBins := h.nBins + n, bins := h.bins ++ List.replicate n ⟨0, 0⟩ }
  else none

/-- The loop of `histogram_custom_bin` from `i` on, `b` being the last bin it saw. -/
def customScan (bins : List Bin) (n : ℕ) : ℕ → ℕ → Option ℕ → Option ℕ
  | 0, _, b => b
  | k + 1, i, _ =>
    match bins[i]? with
    | none => none
    | some b => if n ≤ b.upperBound then some i else customScan bins n k (i + 1) (some i)

def histogramCustomBin (h : Histogram) (n : ℕ) : Option ℕ := customScan h.bins n h.nBins 0 none

/-- How the loop of `histogram_log2_bin` ends: with `b`, or with `i` and `j`. -/
inductive Scan where
  | found (i : ℕ)
  | ended (i j : ℕ)
  deriving Repr, DecidableEq

def log2Scan (bins : List Bin) (ub : ℕ) : ℕ → ℕ → ℕ → Option Scan
  | 0, i, j => some (.ended i j)
  | k + 1, i, j =>
    match bins[i]? with
    | none => none
    | some b =>
      let j := if j = 0 ∧ ub < b.upperBound then i else j
      if b.upperBound = ub then some (.found i)
      else if b.upperBound = maxUint32 then some (.ended (i + 1) j)
      else log2Scan bins ub k (i + 1) j

/-- Moves `bins[j]` to `bins[i - 1]` up by one and makes `bins[j]` the new bin. -/
def insertBin (h : Histogram) (i j ub : ℕ) : Option (Histogram × ℕ) :=
  if i < h.bins.length then
    let bins := h.bins.take (j + 1) ++ ((h.bins.drop j).take (i - j) ++ h.bins.drop (i + 1))
    some ({ h with bins := bins.set j ⟨ub, 0⟩ }, j)
  else none

/-- `out` says that the caller lets the histogram grow. -/
def histogramLog2Bin (h : Histogram) (n : ℕ) (out alloc : Bool) : Option (Histogram × ℕ) :=
  let ub := binLog2UpperBound n
  match log2Scan h.bins ub h.nBins 0 0 with
  | none => none
  | some (.found i) => some (h, i)
  | some (.ended i j) =>
    if i = h.nBins then
      match if out then histogramGrow h alloc else none with
      | some h => insertBin h i j ub
      -- the next closest bin
      | none => some (h, j)
    else insertBin h i j ub

/-- `b->count += count`. -/
def addCount (h : Histogram) (i count : ℕ) : Option Histogram :=
  match h.bins[i]? with
  | none => none
  | some b => some { h with bins := h.bins.set i { b with count := (b.count + count) % 2 ^ 32 } }

/-! ### Creation, recording, merging -/

/-- What `ngx_wa_metrics_histogram_add_locked` puts in each slot; `none` for `NGX_ABORT`. -/
def newHistogram : Option (List ℕ) → Option Histogram
  | none => some ⟨.log2, binsInit, 0, ⟨maxUint32, 0⟩ :: List.replicate (binsInit - 1) ⟨0, 0⟩⟩
  | some bins =>
    if binsMax ≤ bins.length then none
    else some ⟨.custom, bins.length + 1, 0, bins.map (⟨·, 0⟩) ++ [⟨maxUint32, 0⟩]⟩

def recordBin (h : Histogram) (n : ℕ) (alloc : Bool) : Option (Histogram × ℕ) :=
  match h.hType with
  | .log2 => histogramLog2Bin h n true alloc
  | .custom => (histogramCustomBin h n).map fun i => (h, i)

def histogramRecord (h : Histogram) (n : ℕ) (alloc : Bool) : Option Histogram :=
  match recordBin { h with sum := (h.sum + n) % 2 ^ 64 } n alloc with
  | none => none
  | some (h, i) => addCount h i 1

/-- The bin of `out` for bin `j` of a slot. -/
def mergeBin (hType : HistogramType) (out : Histogram) (j upperBound : ℕ) :
    Option (Histogram × ℕ) :=
  match hType with
  | .log2 => histogramLog2Bin out upperBound false false
  | .custom =>
    match out.bins[j]? with
    | none => none
    | some b => some ({ out with bins := out.bins.set j { b with upperBound } }, j)

/-- The bins of a slot from `j` on. -/
def mergeBins (hType : HistogramType) (bins : List Bin) : ℕ → ℕ → Histogram → Option Histogram
  | 0, _, out => some out
  | k + 1, j, out =>
    match bins[j]? with
    | none => none
    | some b =>
      match mergeBin hType out j b.upperBound with
      | none => none
      | some (out, i) =>
        match addCount out i b.count with
        | none => none
        | some out =>
          if b.upperBound = maxUint32 then some out else mergeBins hType bins k (j + 1) out

def histogramGet : List Histogram → Histogram → Option Histogram
  | [], out => some out
  | h :: slots, out =>
    match mergeBins h.hType h.bins h.nBins 0 out with
    | none => none
    | some out => histogramGet slots { out with sum := (out.sum + h.sum) % 2 ^ 64 }

/-- The zeroed buffer of `NGX_WA_METRICS_HISTOGRAM_MAX_SIZE`. -/
def histogramBuffer : Histogram :=
  ⟨.log2, binsMax, 0, ⟨maxUint32, 0⟩ :: List.replicate (binsMax - 1) ⟨0, 0⟩⟩

end NgxWasm.Metrics
