import Mathlib.Data.List.Sort
import Mathlib.Data.List.Perm.Lattice

/-!
# Ordered binary trees of addresses

Intrusive search trees: the tree links addresses `α`, and what is stored at an
address is given by a map `cell : α → ν`. Searching descends by the key of the
cell. Insertion and deletion rebalance; they are taken as operations with the
usual laws, so that no result depends on the shape they leave.
-/

namespace NgxWasm.Lib.SearchTree

variable {α ν κ : Type*}

inductive Tree (α : Type*) where
  | leaf
  | node (left : Tree α) (a : α) (right : Tree α)

def Tree.toList : Tree α → List α
  | .leaf => []
  | .node l a r => l.toList ++ a :: r.toList

section Search

variable [LinearOrder κ]

def lookup (key : α → κ) (k : κ) : Tree α → Option α
  | .leaf => none
  | .node l a r =>
    if k ≠ key a then (if k < key a then lookup key k l else lookup key k r) else some a

def Ordered (key : α → κ) (t : Tree α) : Prop := t.toList.Pairwise fun a b => key a ≤ key b

theorem lookup_some (key : α → κ) (k : κ) (t : Tree α) (a : α) (h : lookup key k t = some a) :
    a ∈ t.toList ∧ key a = k := by
  induction t with
  | leaf => simp [lookup] at h
  | node l x r ihl ihr =>
    simp only [lookup] at h
    split at h
    · split at h
      · obtain ⟨hm, hk⟩ := ihl h
        exact ⟨List.mem_append_left _ hm, hk⟩
      · obtain ⟨hm, hk⟩ := ihr h
        exact ⟨List.mem_append_right _ (List.mem_cons_of_mem _ hm), hk⟩
    · rename_i hk
      have hx : x = a := Option.some.inj h
      subst hx
      exact ⟨List.mem_append_right _ (List.mem_cons_self ..), (not_not.mp hk).symm⟩

theorem lookup_none (key : α → κ) (k : κ) (t : Tree α) (ho : Ordered key t)
    (h : lookup key k t = none) : ∀ a ∈ t.toList, key a ≠ k := by
  induction t with
  | leaf => intro a ha; simp [Tree.toList] at ha
  | node l x r ihl ihr =>
    obtain ⟨hl, hr, hlr⟩ := List.pairwise_append.mp ho
    obtain ⟨hxr, hrr⟩ := List.pairwise_cons.mp hr
    simp only [lookup] at h
    split at h
    · rename_i hk
      -- the side that is not searched lies beyond the node's own key
      split at h
      · rename_i hlt
        intro a ha
        rcases List.mem_append.mp ha with ha | ha
        · exact ihl hl h a ha
        · rcases List.mem_cons.mp ha with ha | ha
          · rw [ha]; exact hk.symm
          · exact (lt_of_lt_of_le hlt (hxr a ha)).ne'
      · rename_i hge
        have hgt : key x < k := lt_of_le_of_ne (not_lt.mp hge) hk.symm
        intro a ha
        rcases List.mem_append.mp ha with ha | ha
        · exact (lt_of_le_of_lt (hlr a ha x (List.mem_cons_self ..)) hgt).ne
        · rcases List.mem_cons.mp ha with ha | ha
          · rw [ha]; exact hk.symm
          · exact ihr hrr h a ha
    · simp at h

theorem lookup_eq_some (key : α → κ) (t : Tree α) (a : α) (ho : Ordered key t)
    (hd : (t.toList.map key).Nodup) (ha : a ∈ t.toList) : lookup key (key a) t = some a := by
  cases h : lookup key (key a) t with
  | none => exact absurd rfl (lookup_none key (key a) t ho h a ha)
  | some b =>
    obtain ⟨hb, hk⟩ := lookup_some key (key a) t b h
    rw [List.inj_on_of_nodup_map hd hb ha hk]

theorem lookup_congr {f g : α → κ} {t : Tree α} (k : κ) (h : ∀ a ∈ t.toList, f a = g a) :
    lookup f k t = lookup g k t := by
  induction t with
  | leaf => rfl
  | node l a r ihl ihr =>
    rw [lookup, lookup, h a (List.mem_append_right _ (List.mem_cons_self ..)),
      ihl fun b hb => h b (List.mem_append_left _ hb),
      ihr fun b hb => h b (List.mem_append_right _ (List.mem_cons_of_mem _ hb))]

theorem ordered_congr {f g : α → κ} {t : Tree α} (h : ∀ a ∈ t.toList, f a = g a)
    (ho : Ordered f t) : Ordered g t := by
  refine List.Pairwise.imp_of_mem ?_ ho
  intro a b ha hb hab
  rw [← h a ha, ← h b hb]
  exact hab

/-- Insertion and deletion of a search tree ordered by `key` of the cells.
Nothing is said about deleting an address that is not linked. -/
structure Ops (α ν : Type*) [DecidableEq α] (key : ν → κ) where
  insert : (α → ν) → Tree α → α → Tree α
  delete : Tree α → α → Tree α
  insert_perm : ∀ cell t a, (insert cell t a).toList.Perm (a :: t.toList)
  insert_ordered : ∀ cell t a, Ordered (fun x => key (cell x)) t →
    Ordered (fun x => key (cell x)) (insert cell t a)
  delete_toList : ∀ t a, a ∈ t.toList → (delete t a).toList = t.toList.erase a

/-- After an insertion the new key is found at its address, the others where they were. -/
theorem lookup_insert [DecidableEq α] {key : ν → κ} (ops : Ops α ν key) {cell : α → ν} {t : Tree α}
    {a : α} (ho : Ordered (fun x => key (cell x)) t)
    (hd : (t.toList.map fun x => key (cell x)).Nodup)
    (hnew : ∀ b ∈ t.toList, key (cell b) ≠ key (cell a)) (k : κ) :
    lookup (fun x => key (cell x)) k (ops.insert cell t a) =
      if k = key (cell a) then some a else lookup (fun x => key (cell x)) k t := by
  have hperm := ops.insert_perm cell t a
  have ho' := ops.insert_ordered cell t a ho
  have hd' : ((ops.insert cell t a).toList.map fun x => key (cell x)).Nodup := by
    rw [(hperm.map _).nodup_iff, List.map_cons, List.nodup_cons, List.mem_map]
    refine ⟨?_, hd⟩
    rintro ⟨b, hb, heq⟩
    exact hnew b hb heq
  by_cases hk : k = key (cell a)
  · rw [if_pos hk, hk]
    exact lookup_eq_some (fun x => key (cell x)) _ a ho' hd'
      (hperm.mem_iff.mpr (List.mem_cons_self ..))
  · rw [if_neg hk]
    cases hold : lookup (fun x => key (cell x)) k t with
    | some b =>
      obtain ⟨hb, hkb⟩ := lookup_some _ k t b hold
      rw [← hkb]
      exact lookup_eq_some (fun x => key (cell x)) _ b ho' hd'
        (hperm.mem_iff.mpr (List.mem_cons_of_mem _ hb))
    | none =>
      cases hins : lookup (fun x => key (cell x)) k (ops.insert cell t a) with
      | none => rfl
      | some b =>
        obtain ⟨hb, hkb⟩ := lookup_some _ k _ b hins
        rcases List.mem_cons.mp (hperm.mem_iff.mp hb) with rfl | hb
        · exact absurd hkb.symm hk
        · exact absurd hkb (lookup_none _ k t ho hold b hb)

/-- After a deletion the key of the address is not found, the others where they were. -/
theorem lookup_delete [DecidableEq α] {key : ν → κ} (ops : Ops α ν key) {cell : α → ν} {t : Tree α}
    {a : α} (ho : Ordered (fun x => key (cell x)) t)
    (hd : (t.toList.map fun x => key (cell x)).Nodup) (ha : a ∈ t.toList) (k : κ) :
    lookup (fun x => key (cell x)) k (ops.delete t a) =
      if k = key (cell a) then none else lookup (fun x => key (cell x)) k t := by
  have hlist := ops.delete_toList t a ha
  have hsub : (ops.delete t a).toList.Sublist t.toList := by
    rw [hlist]
    exact List.erase_sublist
  have ho' : Ordered (fun x => key (cell x)) (ops.delete t a) := List.Pairwise.sublist hsub ho
  have hd' : ((ops.delete t a).toList.map fun x => key (cell x)).Nodup := hd.sublist (hsub.map _)
  have hn : t.toList.Nodup := List.Nodup.of_map _ hd
  cases hdel : lookup (fun x => key (cell x)) k (ops.delete t a) with
  | none =>
    by_cases hk : k = key (cell a)
    · rw [if_pos hk]
    · rw [if_neg hk]
      cases hold : lookup (fun x => key (cell x)) k t with
      | none => rfl
      | some b =>
        obtain ⟨hb, hkb⟩ := lookup_some _ k t b hold
        have hba : b ≠ a := fun h => hk (by rw [← hkb, h])
        have hb' : b ∈ (ops.delete t a).toList := by
          rw [hlist]
          exact (List.mem_erase_of_ne hba).mpr hb
        exact absurd hkb (lookup_none _ k _ ho' hdel b hb')
  | some b =>
    obtain ⟨hb, hkb⟩ := lookup_some _ k _ b hdel
    rw [hlist, hn.mem_erase_iff] at hb
    have hk : k ≠ key (cell a) := fun h => hb.1 (List.inj_on_of_nodup_map hd hb.2 ha (hkb.trans h))
    rw [if_neg hk, ← hkb]
    exact (lookup_eq_some (fun x => key (cell x)) t b ho hd hb.2).symm

/-! ### A list-shaped instance -/

def ofList : List α → Tree α
  | [] => .leaf
  | a :: as => .node .leaf a (ofList as)

theorem toList_ofList (as : List α) : (ofList as).toList = as := by
  induction as with
  | nil => rfl
  | cons a as ih => simp [ofList, Tree.toList, ih]

def listOps (α : Type*) {ν : Type*} [DecidableEq α] (key : ν → κ) : Ops α ν key where
  insert cell t a :=
    ofList (t.toList.orderedInsert (fun x y => key (cell x) ≤ key (cell y)) a)
  delete t a := ofList (t.toList.erase a)
  insert_perm cell t a := by
    rw [toList_ofList]
    exact List.perm_orderedInsert _ a t.toList
  insert_ordered cell t a h := by
    have htot : Std.Total (fun x y => key (cell x) ≤ key (cell y)) := ⟨fun _ _ => le_total _ _⟩
    have htr : IsTrans α (fun x y => key (cell x) ≤ key (cell y)) := ⟨fun _ _ _ => le_trans⟩
    unfold Ordered
    rw [toList_ofList]
    exact List.Pairwise.orderedInsert a t.toList h
  delete_toList t a _ := toList_ofList _

end Search

end NgxWasm.Lib.SearchTree
