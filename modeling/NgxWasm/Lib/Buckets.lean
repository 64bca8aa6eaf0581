import Mathlib.Data.List.Flatten
import Mathlib.Data.List.GetD
import Mathlib.Data.List.Nodup
import Mathlib.Data.List.Range

/-!
# Entries in numbered buckets, newest first

An entry lies in the bucket of its class. A bucket gets a new entry at its
head, so that with a stamp taken at each insertion it is sorted from the newest
to the oldest one. A scan visits buckets in a given order and each of them from
its tail.
-/

namespace NgxWasm.Lib.Buckets

variable {α : Type*}

def bucket (bs : List (List α)) (i : ℕ) : List α := bs.getD i []

def drop (keep : α → Bool) (bs : List (List α)) : List (List α) := bs.map fun b => b.filter keep

def push (i : ℕ) (a : α) (bs : List (List α)) : List (List α) := bs.modify i (a :: ·)

@[simp] theorem bucket_drop (keep : α → Bool) (bs : List (List α)) (i : ℕ) :
    bucket (drop keep bs) i = (bucket bs i).filter keep := by
  simp only [bucket, drop, List.getD_eq_getElem?_getD, List.getElem?_map]
  cases bs[i]? <;> rfl

theorem bucket_push {bs : List (List α)} {i : ℕ} (h : i < bs.length) (a : α) (j : ℕ) :
    bucket (push i a bs) j = if j = i then a :: bucket bs i else bucket bs j := by
  simp only [bucket, push, List.getD_eq_getElem?_getD, List.getElem?_modify]
  by_cases hj : j = i
  · subst hj
    rw [List.getElem?_eq_getElem h]
    simp
  · rw [if_neg hj]
    cases bs[j]? <;> simp [Ne.symm hj]

@[simp] theorem length_drop (keep : α → Bool) (bs : List (List α)) :
    (drop keep bs).length = bs.length := List.length_map _

@[simp] theorem length_push (i : ℕ) (a : α) (bs : List (List α)) :
    (push i a bs).length = bs.length := List.length_modify ..

theorem drop_drop (p q : α → Bool) (bs : List (List α)) :
    drop p (drop q bs) = drop (fun a => p a && q a) bs := by
  simp only [drop, List.map_map]
  apply List.map_congr_left
  intro b _
  exact List.filter_filter ..

@[simp] theorem drop_true (bs : List (List α)) : drop (fun _ => true) bs = bs := by
  simp [drop]

theorem mem_bucket_push {bs : List (List α)} {i j : ℕ} (h : i < bs.length) {a b : α} :
    b ∈ bucket (push i a bs) j ↔ (j = i ∧ b = a) ∨ b ∈ bucket bs j := by
  rw [bucket_push h]
  by_cases hj : j = i
  · subst hj
    simp
  · simp [hj]

theorem mem_bucket_drop {bs : List (List α)} {keep : α → Bool} {i : ℕ} {a : α} :
    a ∈ bucket (drop keep bs) i ↔ a ∈ bucket bs i ∧ keep a = true := by
  rw [bucket_drop, List.mem_filter]

theorem bucket_subset (bs : List (List α)) (i : ℕ) : bucket bs i ⊆ bs.flatten := by
  intro a ha
  by_cases hi : i < bs.length
  · rw [bucket, List.getD_eq_getElem _ _ hi] at ha
    exact List.mem_flatten_of_mem (List.getElem_mem hi) ha
  · rw [bucket, List.getD_eq_default _ _ (Nat.le_of_not_lt hi)] at ha
    exact absurd ha (by simp)

theorem mem_flatten_iff {bs : List (List α)} {a : α} : a ∈ bs.flatten ↔ ∃ i, a ∈ bucket bs i := by
  constructor
  · intro h
    obtain ⟨b, hb, ha⟩ := List.mem_flatten.mp h
    obtain ⟨i, hi, rfl⟩ := List.getElem_of_mem hb
    refine ⟨i, ?_⟩
    rwa [bucket, List.getD_eq_getElem _ _ hi]
  · intro h
    obtain ⟨i, hi⟩ := h
    exact bucket_subset bs i hi

/-! ### Classes -/

/-- Every entry lies in the bucket of its class. -/
def Classed (cls : α → ℕ) (bs : List (List α)) : Prop := ∀ i, ∀ a ∈ bucket bs i, cls a = i

section Classed

variable {cls cls' : α → ℕ} {bs : List (List α)}

theorem Classed.drop (h : Classed cls bs) (keep : α → Bool) : Classed cls (drop keep bs) := by
  intro i a ha
  exact h i a (mem_bucket_drop.mp ha).1

theorem Classed.push (h : Classed cls bs) {a : α} (hlt : cls a < bs.length) :
    Classed cls (push (cls a) a bs) := by
  intro i b hb
  rcases (mem_bucket_push hlt).mp hb with hb | hb
  · rw [hb.1, hb.2]
  · exact h i b hb

theorem Classed.congr (h : Classed cls bs) (heq : ∀ i, ∀ a ∈ bucket bs i, cls' a = cls a) :
    Classed cls' bs := by
  intro i a ha
  rw [heq i a ha, h i a ha]

end Classed

/-! ### Stamps -/

def NewestFirst (stamp : α → ℕ) (bs : List (List α)) : Prop :=
  ∀ i, (bucket bs i).Pairwise fun a b => stamp b < stamp a

section NewestFirst

variable {stamp stamp' : α → ℕ} {bs : List (List α)}

theorem NewestFirst.drop (h : NewestFirst stamp bs) (keep : α → Bool) :
    NewestFirst stamp (drop keep bs) := by
  intro i
  rw [bucket_drop]
  exact (h i).filter _

theorem NewestFirst.push (h : NewestFirst stamp bs) {i : ℕ} (hlt : i < bs.length) {a : α}
    (hnew : ∀ b ∈ bucket bs i, stamp b < stamp a) : NewestFirst stamp (push i a bs) := by
  intro j
  rw [bucket_push hlt]
  split
  · exact List.pairwise_cons.mpr ⟨hnew, h i⟩
  · exact h j

theorem NewestFirst.congr (h : NewestFirst stamp bs)
    (heq : ∀ i, ∀ a ∈ bucket bs i, stamp' a = stamp a) : NewestFirst stamp' bs := by
  intro i
  refine List.Pairwise.imp_of_mem ?_ (h i)
  intro a b ha hb hab
  rw [heq i a ha, heq i b hb]
  exact hab

end NewestFirst

/-! ### Scans -/

def scan (order : List ℕ) (bs : List (List α)) : List α :=
  order.flatMap fun i => (bucket bs i).reverse

/-- Buckets one after the other, and oldest first inside each of them. -/
theorem scan_pairwise {R : ℕ → ℕ → Prop} {order : List ℕ} (hR : order.Pairwise R)
    {cls stamp : α → ℕ} {bs : List (List α)} (hc : Classed cls bs) (hs : NewestFirst stamp bs) :
    (scan order bs).Pairwise fun a b =>
      R (cls a) (cls b) ∨ (cls a = cls b ∧ stamp a < stamp b) := by
  refine List.pairwise_flatMap.mpr ⟨?_, ?_⟩
  · intro i _
    rw [List.pairwise_reverse]
    refine List.Pairwise.imp_of_mem ?_ (hs i)
    intro a b ha hb hab
    exact .inr ⟨by rw [hc i a ha, hc i b hb], hab⟩
  · refine List.Pairwise.imp ?_ hR
    intro i j hij a ha b hb
    rw [List.mem_reverse] at ha hb
    exact .inl (by rwa [hc i a ha, hc j b hb])

/-- A scan over all buckets misses no entry. -/
theorem mem_scan {order : List ℕ} {bs : List (List α)} (hall : ∀ i < bs.length, i ∈ order)
    {a : α} (ha : a ∈ bs.flatten) : a ∈ scan order bs := by
  obtain ⟨b, hb, ha⟩ := List.mem_flatten.mp ha
  obtain ⟨i, hi, rfl⟩ := List.getElem_of_mem hb
  refine List.mem_flatMap.mpr ⟨i, hall i hi, ?_⟩
  rw [List.mem_reverse, bucket, List.getD_eq_getElem _ _ hi]
  exact ha

end NgxWasm.Lib.Buckets
