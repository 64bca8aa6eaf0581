import NgxWasm.Http.DispatchLinks
import NgxWasm.Lib.Owned
import NgxWasm.Lib.Run

/-!
# Owners of the links of dispatched calls

No link is reachable from two owners exactly in the runs in which no request is
sent completely: its links are then on the free list while the call still points
to them. If the call is no longer counted as their owner, buffers that are never
taken from a free list are never shared.
-/

namespace NgxWasm.Http.DispatchUnique
open NgxWasm.Lib Links Owned Run NgxWasm.Http.DispatchLinks

/-! ### Statement -/

inductive Owner where
  | free
  | request (i : ℕ)
  | receive (i : ℕ)
  | response (i : ℕ)
  deriving Repr, DecidableEq

def callHeads (st : Rctx) (i : ℕ) (f : Call → List (Option ℕ)) : List (Option ℕ) :=
  match st.calls i with
  | some call => f call
  | none => []

/-- Where the chains of an owner begin: the request's free list, and what a live
call and its socket point to. -/
def heads (st : Rctx) : Owner → List (Option ℕ)
  | .free => [st.freeBufs]
  | .request i => callHeads st i fun call => [call.reqOut, call.reqBody]
  | .receive i => callHeads st i fun call => [call.bufsIn, call.busyLargeBufs]
  | .response i => callHeads st i fun call => [call.chunks, call.body]

/-- A request that has been sent is no longer counted. -/
def headsInUse (st : Rctx) : Owner → List (Option ℕ)
  | .request i => callHeads st i fun call =>
    if call.state = .sending then [call.reqOut, call.reqBody] else []
  | o => heads st o

structure Unique (next : ℕ → Option ℕ) (heads : Owner → List (Option ℕ)) : Prop where
  apart : ∀ o o' a a' x, o ≠ o' → a ∈ heads o → a' ∈ heads o' →
    Reaches next a x → ¬ Reaches next a' x
  ended : ∀ o a, a ∈ heads o → ∃ xs, Seg next a xs none ∧ xs.Nodup

/-- The input sends the rest of a request. -/
def Completes (conf : Conf) (st : Rctx) : Input → Prop
  | .send i alloc sent => ∃ call, st.calls i = some call ∧ call.state = .sending ∧
    completes (dispatchRequest conf st call alloc) sent = true
  | _ => False

/-! ### The invariant -/

inductive Place where
  | pool
  | owner (o : Owner)
  deriving DecidableEq

def Owner.call : Owner → Option ℕ
  | .free => none
  | .request i => some i
  | .receive i => some i
  | .response i => some i

structure CallInv (conf : Conf) (st : Rctx) (own : ℕ → Option Place) (i : ℕ) (call : Call) :
    Prop where
  reqOut : call.state = .sending → Held own (.owner (.request i)) call.reqOut
  reqBody : call.state = .sending → Held own (.owner (.request i)) call.reqBody
  linked : call.state = .sending → ∀ l, call.reqOut = some l → st.next l = call.reqBody
  sent : call.state ≠ .sending → conf.reuses = false ∧ Held own (.owner .free) call.reqBody
  bufsIn : Held own (.owner (.receive i)) call.bufsIn
  bufIn : Held own (.owner (.receive i)) call.bufIn
  large : Held own (.owner (.receive i)) call.busyLargeBufs
  chunks : Held own (.owner (.response i)) call.chunks
  body : Held own (.owner (.response i)) call.body

structure Inv (conf : Conf) (st : Rctx) (own : ℕ → Option Place) : Prop where
  fresh : ∀ x, st.fresh ≤ x → own x = none
  pool : Exactly st.next own .pool st.poolChain
  chained : ∀ o, Chained st.next own (.owner o)
  free : Held own (.owner .free) st.freeBufs
  kept : conf.reuses = true → Exactly st.next own (.owner .free) st.freeBufs
  live : ∀ x o i, own x = some (.owner o) → o.call = some i → ∃ call, st.calls i = some call
  count : ∀ i, st.count ≤ i → st.calls i = none
  calls : ∀ i call, st.calls i = some call → CallInv conf st own i call

theorem callInv_frame {conf : Conf} {st st' : Rctx} {own own' : ℕ → Option Place} {i : ℕ}
    {call : Call} (h : CallInv conf st own i call)
    (hown : ∀ x o, o.call = some i → own x = some (.owner o) → own' x = some (.owner o))
    (hfree : conf.reuses = false → ∀ x, own x = some (.owner .free) → own' x = some (.owner .free))
    (hnext : ∀ x, own x = some (.owner (.request i)) → st'.next x = st.next x) :
    CallInv conf st' own' i call := by
  constructor
  · exact fun hs => held_frame (h.reqOut hs) fun x => hown x _ rfl
  · exact fun hs => held_frame (h.reqBody hs) fun x => hown x _ rfl
  · intro hs l hl
    rw [hnext l (h.reqOut hs l hl)]
    exact h.linked hs l hl
  · exact fun hs => ⟨(h.sent hs).1, held_frame (h.sent hs).2 (hfree (h.sent hs).1)⟩
  · exact held_frame h.bufsIn fun x => hown x _ rfl
  · exact held_frame h.bufIn fun x => hown x _ rfl
  · exact held_frame h.large fun x => hown x _ rfl
  · exact held_frame h.chunks fun x => hown x _ rfl
  · exact held_frame h.body fun x => hown x _ rfl

/-- Nothing changes for a call if no cell changes its owner. -/
theorem callInv_kept {conf : Conf} {st st' : Rctx} {own own' : ℕ → Option Place} {i : ℕ}
    {call : Call} (h : CallInv conf st own i call)
    (hown : ∀ x o, own x = some (.owner o) → own' x = some (.owner o))
    (hnext : ∀ x, own x = some (.owner (.request i)) → st'.next x = st.next x) :
    CallInv conf st' own' i call :=
  callInv_frame h (fun x o _ => hown x o) (fun _ x => hown x _) hnext

/-- A cell that nobody owns may be linked anywhere. -/
theorem inv_setNext {conf : Conf} {st : Rctx} {own : ℕ → Option Place} (h : Inv conf st own)
    {l : ℕ} (hl : own l = none) (a : Option ℕ) : Inv conf (setNext st l a) own := by
  have hnext : ∀ x p, own x = some p → (setNext st l a).next x = st.next x := by
    intro x p hx
    apply Function.update_of_ne
    rintro rfl
    exact absurd (hx.symm.trans hl) (by simp)
  constructor
  · exact h.fresh
  · exact exactly_frame h.pool (fun x => Iff.rfl) fun x hx => hnext x _ hx
  · exact fun o => chained_frame (h.chained o) (fun x => Iff.rfl) fun x hx => hnext x _ hx
  · exact h.free
  · exact fun hr => exactly_frame (h.kept hr) (fun x => Iff.rfl) fun x hx => hnext x _ hx
  · exact h.live
  · exact h.count
  · exact fun i call hc => callInv_kept (h.calls i call hc) (fun x o => id) fun x hx => hnext x _ hx

/-! ### Links -/

theorem allocChainLink_inv {conf : Conf} {st : Rctx} {own : ℕ → Option Place}
    (h : Inv conf st own) :
    let r := allocChainLink st
    ∃ own', Inv conf r.1 own' ∧ own' r.2 = none ∧ r.2 < r.1.fresh ∧
      ∀ x o, own' x = some (.owner o) ↔ own x = some (.owner o) := by
  cases hp : st.poolChain with
  | none =>
    have hr : allocChainLink st = ({ st with fresh := st.fresh + 1 }, st.fresh) := by
      simp only [allocChainLink, hp]
    simp only [hr]
    refine ⟨own, ?_, h.fresh _ le_rfl, Nat.lt_succ_self _, fun x o => Iff.rfl⟩
    exact ⟨fun x hx => h.fresh x (Nat.le_of_succ_le hx), h.pool, h.chained, h.free, h.kept, h.live,
      h.count, fun i call hc => callInv_kept (h.calls i call hc) (fun x o => id) fun x hx => rfl⟩
  | some cl =>
    have hr : allocChainLink st = ({ st with poolChain := st.next cl }, cl) := by
      simp only [allocChainLink, hp]
    simp only [hr]
    have hpool : Exactly st.next own .pool (some cl) := hp ▸ h.pool
    have hcl : own cl = some .pool := exactly_held hpool cl rfl
    have hown : ∀ x o, Function.update own cl none x = some (.owner o) ↔
        own x = some (.owner o) := by
      intro x o
      by_cases hx : x = cl
      · subst hx
        simp [hcl]
      · rw [Function.update_of_ne hx]
    have hfresh : cl < st.fresh := by
      by_contra hge
      exact absurd ((h.fresh cl (Nat.le_of_not_lt hge)).symm.trans hcl) (by simp)
    refine ⟨Function.update own cl none, ?_, Function.update_self .., hfresh, hown⟩
    constructor
    · intro x hx
      have hle : st.fresh ≤ x := hx
      rw [Function.update_of_ne (by omega)]
      exact h.fresh x hle
    · exact exactly_pop hpool
    · exact fun o => chained_frame (h.chained o) (fun x => hown x o) fun x hx => rfl
    · exact held_frame h.free fun x hx => (hown x _).mpr hx
    · exact fun hr => exactly_frame (h.kept hr) (fun x => hown x _) fun x hx => rfl
    · exact fun x o i hx => h.live x o i ((hown x o).mp hx)
    · exact h.count
    · exact fun i call hc =>
        callInv_kept (h.calls i call hc) (fun x o => (hown x o).mpr) fun x hx => rfl

/-- A link that was taken belongs to nobody and to no chain. -/
structure Loose (st : Rctx) (own : ℕ → Option Place) (cl : ℕ) : Prop where
  lost : own cl = none
  next : st.next cl = none
  fresh : cl < st.fresh

/-- What taking a link leaves behind. -/
structure Took (conf : Conf) (st st' : Rctx) (own own' : ℕ → Option Place) (cl : Option ℕ) :
    Prop where
  inv : Inv conf st' own'
  loose : ∀ l, cl = some l → Loose st' own' l
  calls : st'.calls = st.calls
  count : st'.count = st.count
  owned : ∀ x o, o ≠ .free → own x = some (.owner o) → own' x = some (.owner o)

theorem getFreeBuf_fresh {conf : Conf} {st : Rctx} {own : ℕ → Option Place}
    (h : Inv conf st own) (free : Option ℕ) (alloc : Alloc) :
    let r := chainGetFreeBuf st free alloc false
    r.2.1 = free ∧ r.1.freeBufs = st.freeBufs ∧ ∃ own', Took conf st r.1 own own' r.2.2 := by
  have hkeep : (allocChainLink st).1.freeBufs = st.freeBufs ∧
      (allocChainLink st).1.calls = st.calls ∧ (allocChainLink st).1.count = st.count := by
    unfold allocChainLink
    split <;> exact ⟨rfl, rfl, rfl⟩
  obtain ⟨hfree, hcalls, hcount⟩ := hkeep
  obtain ⟨own', hinv, hlost, hfresh, hown⟩ := allocChainLink_inv h
  cases alloc with
  | noLink =>
    refine ⟨rfl, rfl, own, h, ?_, rfl, rfl, fun x o _ => id⟩
    simp [chainGetFreeBuf]
  | noBuf =>
    refine ⟨rfl, hfree, own', hinv, ?_, hcalls, hcount, fun x o _ => (hown x o).mpr⟩
    simp [chainGetFreeBuf]
  | ok =>
    refine ⟨rfl, hfree, own', inv_setNext hinv hlost none, ?_, hcalls, hcount,
      fun x o _ => (hown x o).mpr⟩
    intro l hl
    obtain rfl : (allocChainLink st).2 = l := Option.some.inj hl
    exact ⟨hlost, Function.update_self .., hfresh⟩

/-- A link from the request's free list, or a new one. -/
theorem getFreeBuf_inv {conf : Conf} {st : Rctx} {own : ℕ → Option Place} (h : Inv conf st own)
    (alloc : Alloc) (reuse : Bool) (hr : reuse = true → conf.reuses = true) :
    let r := chainGetFreeBuf st st.freeBufs alloc reuse
    ∃ own', Took conf st { r.1 with freeBufs := r.2.1 } own own' r.2.2 := by
  have hnew : ∀ free, free = st.freeBufs →
      let r := chainGetFreeBuf st free alloc false
      ∃ own', Took conf st { r.1 with freeBufs := r.2.1 } own own' r.2.2 := by
    intro free hfree
    obtain ⟨hkept, hsame, own', htook⟩ := getFreeBuf_fresh h free alloc
    generalize chainGetFreeBuf st free alloc false = r at hkept hsame htook ⊢
    have hself : { r.1 with freeBufs := r.2.1 } = r.1 := by
      rw [hkept, hfree, ← hsame]
    exact ⟨own', hself.symm ▸ htook⟩
  cases reuse with
  | false => exact hnew st.freeBufs rfl
  | true =>
    cases hf : st.freeBufs with
    | none => exact hnew none hf.symm
    | some cl =>
      have hkept : Exactly st.next own (.owner .free) (some cl) := hf ▸ h.kept (hr rfl)
      have hcl : own cl = some (.owner .free) := exactly_held hkept cl rfl
      have hpop := exactly_pop hkept
      have hown : ∀ x p, p ≠ .owner .free →
          (Function.update own cl none x = some p ↔ own x = some p) := by
        intro x p hp
        by_cases hx : x = cl
        · subst hx
          simp [hcl, hp.symm]
        · rw [Function.update_of_ne hx]
      set st₁ : Rctx := { st with freeBufs := st.next cl } with hst₁
      have hinv : Inv conf st₁ (Function.update own cl none) := by
        constructor
        · intro x hx
          by_cases hxc : x = cl
          · rw [hxc, Function.update_self]
          · rw [Function.update_of_ne hxc]
            exact h.fresh x hx
        · exact exactly_frame h.pool (fun x => hown x _ (by simp)) fun x hx => rfl
        · intro o
          by_cases ho : o = .free
          · subst ho
            exact exactly_chained hpop
          · exact chained_frame (h.chained o) (fun x => hown x _ (by simpa using ho)) fun x hx => rfl
        · exact exactly_held hpop
        · exact fun _ => hpop
        · intro x o i hx hi
          have hne : o ≠ .free := by
            rintro rfl
            simp [Owner.call] at hi
          exact h.live x o i ((hown x _ (by simpa using hne)).mp hx) hi
        · exact h.count
        · intro i call hc
          apply callInv_frame (h.calls i call hc)
          · intro x o ho
            have hne : o ≠ .free := by
              rintro rfl
              simp [Owner.call] at ho
            exact (hown x _ (by simpa using hne)).mpr
          · intro hf
            exact absurd (hf.symm.trans (hr rfl)) (by simp)
          · exact fun x hx => rfl
      have hlost : Function.update own cl none cl = none := Function.update_self ..
      refine ⟨Function.update own cl none, inv_setNext hinv hlost none, ?_, rfl, rfl, ?_⟩
      · intro l hl
        have hlc : cl = l := by
          simp only [chainGetFreeBuf] at hl
          split at hl
          · exact Option.some.inj hl
          · simp at hl
        rw [← hlc]
        refine ⟨hlost, Function.update_self .., ?_⟩
        by_contra hge
        exact absurd ((h.fresh cl (Nat.le_of_not_lt hge)).symm.trans hcl) (by simp)
      · exact fun x o ho => (hown x _ (by simpa using ho)).mpr

/-! ### Owners -/

theorem attach_inv {conf : Conf} {st : Rctx} {own : ℕ → Option Place} (h : Inv conf st own)
    {cl : ℕ} (hcl : Loose st own cl) {o : Owner} (ho : o ≠ .free)
    (hlive : ∀ i, o.call = some i → ∃ call, st.calls i = some call) :
    Inv conf st (Function.update own cl (some (.owner o))) := by
  have hown : ∀ x p, p ≠ .owner o →
      (Function.update own cl (some (.owner o)) x = some p ↔ own x = some p) := by
    intro x p hp
    by_cases hx : x = cl
    · subst hx
      simp [hcl.lost, hp.symm]
    · rw [Function.update_of_ne hx]
  have hkeep : ∀ x p, own x = some p →
      Function.update own cl (some (.owner o)) x = some p := by
    intro x p hx
    rw [Function.update_of_ne, hx]
    rintro rfl
    exact absurd (hx.symm.trans hcl.lost) (by simp)
  constructor
  · intro x hx
    have hlt := hcl.fresh
    rw [Function.update_of_ne (by omega)]
    exact h.fresh x hx
  · exact exactly_frame h.pool (fun x => hown x _ (by simp)) fun x hx => rfl
  · intro o'
    by_cases hoo : o' = o
    · subst hoo
      exact chained_attach (h.chained o') hcl.lost hcl.next
    · exact chained_frame (h.chained o') (fun x => hown x _ (by simpa using hoo)) fun x hx => rfl
  · exact held_frame h.free fun x => hkeep x _
  · exact fun hr => exactly_frame (h.kept hr) (fun x => hown x _ (by simpa using ho.symm)) fun x hx => rfl
  · intro x o' i hx hi
    by_cases hoo : o' = o
    · subst hoo
      exact hlive i hi
    · exact h.live x o' i ((hown x _ (by simpa using hoo)).mp hx) hi
  · exact h.count
  · exact fun i call hc => callInv_kept (h.calls i call hc) (fun x o' => hkeep x _) fun x hx => rfl

theorem relink_inv {conf : Conf} {st : Rctx} {own : ℕ → Option Place} (h : Inv conf st own)
    {l : ℕ} {o : Owner} {t : Option ℕ} {ts : List ℕ} (hl : own l = some (.owner o)) (ho : o ≠ .free)
    (hs : Seg st.next t ts none) (hts : ∀ y ∈ ts, own y = some (.owner o)) (hlt : l ∉ ts)
    (hreq : ∀ i call, st.calls i = some call → call.state = .sending → call.reqOut ≠ some l) :
    Inv conf (setNext st l t) own := by
  have hnext : ∀ x p, p ≠ .owner o → own x = some p → (setNext st l t).next x = st.next x := by
    intro x p hp hx
    apply Function.update_of_ne
    rintro rfl
    exact hp (Option.some.inj (hx.symm.trans hl))
  constructor
  · exact h.fresh
  · exact exactly_frame h.pool (fun x => Iff.rfl) fun x => hnext x _ (by simp)
  · intro o'
    by_cases hoo : o' = o
    · subst hoo
      exact chained_relink (h.chained o') hs hts hlt
    · exact chained_frame (h.chained o') (fun x => Iff.rfl) fun x => hnext x _ (by simpa using hoo)
  · exact h.free
  · intro hr
    exact exactly_frame (h.kept hr) (fun x => Iff.rfl) fun x => hnext x _ (by simpa using ho.symm)
  · exact h.live
  · exact h.count
  · intro i call hc
    obtain ⟨hout, hbody, hlinked, hsent, hin, hlast, hlarge, hchunks, hresp⟩ := h.calls i call hc
    refine ⟨hout, hbody, fun hst l' hl' => ?_, hsent, hin, hlast, hlarge, hchunks, hresp⟩
    rw [← hlinked hst l' hl']
    apply Function.update_of_ne
    rintro rfl
    exact hreq i call hc hst hl'

/-- A link that was taken goes behind a link of a call. -/
theorem append_inv {conf : Conf} {st : Rctx} {own : ℕ → Option Place} (h : Inv conf st own)
    {cl l : ℕ} (hcl : Loose st own cl) {o : Owner} (hl : own l = some (.owner o)) (ho : o ≠ .free)
    (hreq : ∀ i, o ≠ .request i) :
    Inv conf (setNext st l (some cl)) (Function.update own cl (some (.owner o))) := by
  have hne : l ≠ cl := by
    rintro rfl
    exact absurd (hl.symm.trans hcl.lost) (by simp)
  have hattached := attach_inv h hcl ho fun i hi => h.live l o i hl hi
  have hseg : Seg st.next (some cl) [cl] none := ⟨rfl, hcl.next⟩
  apply relink_inv hattached _ ho hseg
  · intro y hy
    rw [List.mem_singleton.mp hy, Function.update_self]
  · simpa using hne
  · intro i call hc hs hout
    have hreqi := (h.calls i call hc).reqOut hs l hout
    rw [hl] at hreqi
    simp only [Option.some.injEq, Place.owner.injEq] at hreqi
    exact hreq i hreqi
  · rw [Function.update_of_ne hne]
    exact hl

theorem setCall_inv {conf : Conf} {st : Rctx} {own : ℕ → Option Place} (h : Inv conf st own)
    {i : ℕ} {old call : Call} (hi : st.calls i = some old) (hc : CallInv conf st own i call) :
    Inv conf (setCall st i call) own := by
  have hcalls : ∀ j, j ≠ i → (setCall st i call).calls j = st.calls j :=
    fun j hj => Function.update_of_ne hj _ _
  have hself : (setCall st i call).calls i = some call := Function.update_self ..
  constructor
  · exact h.fresh
  · exact h.pool
  · exact h.chained
  · exact h.free
  · exact h.kept
  · intro x o j hx hj
    by_cases hji : j = i
    · subst hji
      exact ⟨call, hself⟩
    · rw [hcalls j hji]
      exact h.live x o j hx hj
  · intro j hj
    rw [hcalls j, h.count j hj]
    rintro rfl
    exact absurd (hi.symm.trans (h.count j hj)) (by simp)
  · intro j c hj
    by_cases hji : j = i
    · subst hji
      obtain rfl : call = c := Option.some.inj (hself.symm.trans hj)
      exact callInv_kept hc (fun x o => id) fun x hx => rfl
    · rw [hcalls j hji] at hj
      exact callInv_kept (h.calls j c hj) (fun x o => id) fun x hx => rfl

/-! ### Reads -/

section Reads

variable {conf : Conf} {st : Rctx} {own : ℕ → Option Place} {i : ℕ} {call : Call}

/-- Links that are taken in a read are new ones. -/
theorem read_fresh (h : Inv conf st own) (hi : st.calls i = some call)
    (hs : call.state = .receiving) : conf.reuses = false ∧ conf.bufferReuse = false := by
  have hne : call.state ≠ .sending := by
    rw [hs]
    decide
  have hr := ((h.calls i call hi).sent hne).1
  exact ⟨hr, (Bool.or_eq_false_iff.mp hr).2⟩

theorem took_call {st' : Rctx} {own' : ℕ → Option Place} {cl : Option ℕ}
    (ht : Took conf st st' own own' cl) (hi : st.calls i = some call) :
    st'.calls i = some call ∧ CallInv conf st' own' i call := by
  have hi' : st'.calls i = some call := by
    rw [ht.calls]
    exact hi
  exact ⟨hi', ht.inv.calls i call hi'⟩

theorem tcpRead_inv (h : Inv conf st own) (hi : st.calls i = some call)
    (hs : call.state = .receiving) (alloc : Alloc) :
    let r := tcpRead conf st call alloc
    ∃ own', Inv conf (setCall r.1 i r.2) own' := by
  obtain ⟨-, hnew⟩ := read_fresh h hi hs
  obtain ⟨-, -, own', htook⟩ := getFreeBuf_fresh h call.sockFreeBufs alloc
  simp only [tcpRead, hnew]
  generalize chainGetFreeBuf st call.sockFreeBufs alloc false = r at htook
  obtain ⟨st', free, cl⟩ := r
  obtain ⟨hi', hcall⟩ := took_call htook hi
  have hlive : ∃ c, st'.calls i = some c := ⟨call, hi'⟩
  have hreceive : Owner.receive i ≠ .free := by simp
  cases cl with
  | none =>
    refine ⟨own', setCall_inv htook.inv hi' ?_⟩
    exact ⟨hcall.reqOut, hcall.reqBody, hcall.linked, hcall.sent, hcall.bufsIn, hcall.bufIn,
      hcall.large, hcall.chunks, hcall.body⟩
  | some l =>
    have hloose := htook.loose l rfl
    set own₁ := Function.update own' l (some (.owner (.receive i))) with hown₁
    have hl : own₁ l = some (.owner (.receive i)) := Function.update_self ..
    have hfirst : Inv conf st' own₁ :=
      attach_inv htook.inv hloose hreceive fun j hj => (Option.some.inj hj) ▸ hlive
    -- the link is the only receive buffer so far
    have hone : ∃ own'', Inv conf (setCall st' i { call with
        sockFreeBufs := free, bufsIn := some l, bufIn := some l }) own'' := by
      obtain ⟨hout, hbody, hlinked, hsent, -, -, hlarge, hchunks, hresp⟩ := hfirst.calls i call hi'
      exact ⟨own₁, setCall_inv hfirst hi' ⟨hout, hbody, hlinked, hsent, held_some hl, held_some hl,
        hlarge, hchunks, hresp⟩⟩
    cases hin : call.bufsIn with
    | none => exact hone
    | some a =>
      cases hlast : call.bufIn with
      | none => exact hone
      | some b =>
        have hb : own' b = some (.owner (.receive i)) := hcall.bufIn b hlast
        have hmore : Inv conf (setNext st' b (some l)) own₁ :=
          append_inv htook.inv hloose hb hreceive (by simp)
        obtain ⟨hout, hbody, hlinked, hsent, hbufs, -, hlarge, hchunks, hresp⟩ :=
          hmore.calls i call hi'
        rw [hin] at hbufs
        exact ⟨own₁, setCall_inv hmore hi' ⟨hout, hbody, hlinked, hsent, hbufs, held_some hl,
          hlarge, hchunks, hresp⟩⟩

theorem allocLargeBuffer_inv (h : Inv conf st own) (hi : st.calls i = some call) (alloc : Alloc)
    (parsed : Bool) :
    let r := allocLargeBuffer st call alloc parsed
    ∃ own', Inv conf (setCall r.1 i r.2) own' := by
  by_cases ha : alloc = .ok
  · simp only [allocLargeBuffer, ha, if_true]
    obtain ⟨own', hinv, hlost, hfresh, hown⟩ := allocChainLink_inv h
    have hcalls : (allocChainLink st).1.calls = st.calls := by
      unfold allocChainLink
      split <;> rfl
    generalize allocChainLink st = r at hinv hlost hfresh hcalls
    obtain ⟨st', cl⟩ := r
    have hloose : Loose (setNext st' cl none) own' cl := ⟨hlost, Function.update_self .., hfresh⟩
    have hi' : (setNext st' cl none).calls i = some call := by
      show st'.calls i = some call
      rw [hcalls]
      exact hi
    have hempty := inv_setNext hinv hlost none
    have hlarge := (hempty.calls i call hi').large
    obtain ⟨ts, hts, hheld⟩ := chained_seg (hempty.chained (.receive i)) hlarge
    have hclts : cl ∉ ts := fun hmem => absurd ((hheld cl hmem).symm.trans hlost) (by simp)
    set own₁ := Function.update own' cl (some (.owner (.receive i))) with hown₁
    have hcl : own₁ cl = some (.owner (.receive i)) := Function.update_self ..
    have hattached : Inv conf (setNext st' cl none) own₁ :=
      attach_inv hempty hloose (by simp) fun j hj => (Option.some.inj hj) ▸ ⟨call, hi'⟩
    have hlinked : Inv conf (setNext (setNext st' cl none) cl call.busyLargeBufs) own₁ := by
      apply relink_inv hattached hcl (by simp) hts _ hclts
      · intro j c hj hs hout
        have hheldj := (hattached.calls j c hj).reqOut hs cl hout
        rw [hcl] at hheldj
        simp at hheldj
      · intro y hy
        have hne : y ≠ cl := by
          rintro rfl
          exact hclts hy
        rw [hown₁, Function.update_of_ne hne]
        exact hheld y hy
    have hsame : setNext (setNext st' cl none) cl call.busyLargeBufs =
        setNext st' cl call.busyLargeBufs := by
      simp [setNext]
    rw [hsame] at hlinked
    refine ⟨own₁, setCall_inv hlinked hi' ?_⟩
    obtain ⟨hout, hbody, hlink, hsent, hbufs, hlast, -, hchunks, hresp⟩ := hlinked.calls i call hi'
    refine ⟨hout, hbody, hlink, hsent, hbufs, ?_, held_some hcl, hchunks, hresp⟩
    cases parsed with
    | true => exact hlast
    | false => exact held_some hcl
  · simp only [allocLargeBuffer, ha, if_false]
    exact ⟨own, setCall_inv h hi (h.calls i call hi)⟩

theorem readChunk_inv (h : Inv conf st own) (hi : st.calls i = some call)
    (hs : call.state = .receiving) (alloc : Alloc) :
    let r := readChunk conf st call alloc
    ∃ own', Inv conf (setCall r.1 i r.2) own' := by
  obtain ⟨-, hnew⟩ := read_fresh h hi hs
  obtain ⟨own', htook⟩ := getFreeBuf_inv h alloc false (by simp)
  have hlast : ∀ l, (walk st.next st.fresh call.chunks).getLast? = some l →
      own l = some (.owner (.response i)) := by
    intro l hl
    have hmem := List.mem_of_getLast? hl
    exact reaches_held (h.chained _) (h.calls i call hi).chunks ⟨_, hmem⟩
  simp only [readChunk, hnew]
  generalize (walk st.next st.fresh call.chunks).getLast? = ll at hlast
  generalize chainGetFreeBuf st st.freeBufs alloc false = r at htook
  obtain ⟨st₁, free, cl⟩ := r
  set st' : Rctx := { st₁ with freeBufs := free } with hst'
  obtain ⟨hi', hcall⟩ := took_call htook hi
  have hlive : ∃ c, st'.calls i = some c := ⟨call, hi'⟩
  have hresponse : Owner.response i ≠ .free := by simp
  cases cl with
  | none => exact ⟨own', setCall_inv htook.inv hi' hcall⟩
  | some c =>
    have hloose := htook.loose c rfl
    set own₁ := Function.update own' c (some (.owner (.response i))) with hown₁
    have hc : own₁ c = some (.owner (.response i)) := Function.update_self ..
    cases ll with
    | none =>
      have hfirst : Inv conf st' own₁ :=
        attach_inv htook.inv hloose hresponse fun j hj => (Option.some.inj hj) ▸ hlive
      obtain ⟨hout, hbody, hlinked, hsent, hbufs, hlast, hlarge, -, hresp⟩ := hfirst.calls i call hi'
      exact ⟨own₁, setCall_inv hfirst hi' ⟨hout, hbody, hlinked, hsent, hbufs, hlast, hlarge,
        held_some hc, hresp⟩⟩
    | some l =>
      have hl : own' l = some (.owner (.response i)) := htook.owned l _ hresponse (hlast l rfl)
      have hmore : Inv conf (setNext st' l (some c)) own₁ :=
        append_inv htook.inv hloose hl hresponse (by simp)
      exact ⟨own₁, setCall_inv hmore hi' (hmore.calls i call hi')⟩

theorem readBody_inv (h : Inv conf st own) (hi : st.calls i = some call)
    (hs : call.state = .receiving) (alloc : Alloc) :
    let r := readBody conf st call alloc
    ∃ own', Inv conf (setCall r.1 i r.2) own' := by
  obtain ⟨-, hnew⟩ := read_fresh h hi hs
  obtain ⟨own', htook⟩ := getFreeBuf_inv h alloc false (by simp)
  simp only [readBody, hnew]
  generalize chainGetFreeBuf st st.freeBufs alloc false = r at htook
  obtain ⟨st₁, free, cl⟩ := r
  set st' : Rctx := { st₁ with freeBufs := free } with hst'
  obtain ⟨hi', hcall⟩ := took_call htook hi
  have hlive : ∃ c, st'.calls i = some c := ⟨call, hi'⟩
  cases cl with
  | none =>
    refine ⟨own', setCall_inv htook.inv hi' ?_⟩
    exact ⟨hcall.reqOut, hcall.reqBody, hcall.linked, hcall.sent, hcall.bufsIn, hcall.bufIn,
      hcall.large, hcall.chunks, held_none⟩
  | some c =>
    have hfirst : Inv conf st' (Function.update own' c (some (.owner (.response i)))) :=
      attach_inv htook.inv (htook.loose c rfl) (by simp) fun j hj => (Option.some.inj hj) ▸ hlive
    obtain ⟨hout, hbody, hlinked, hsent, hbufs, hlast, hlarge, hchunks, -⟩ := hfirst.calls i call hi'
    exact ⟨_, setCall_inv hfirst hi' ⟨hout, hbody, hlinked, hsent, hbufs, hlast, hlarge, hchunks,
      held_some (Function.update_self ..)⟩⟩

theorem runRead_inv (h : Inv conf st own) (hi : st.calls i = some call)
    (hs : call.state = .receiving) (read : Read) :
    let r := runRead conf st call read
    ∃ own', Inv conf (setCall r.1 i r.2) own' := by
  cases read with
  | buffer alloc => exact tcpRead_inv h hi hs alloc
  | large alloc parsed => exact allocLargeBuffer_inv h hi alloc parsed
  | chunk alloc => exact readChunk_inv h hi hs alloc
  | body alloc => exact readBody_inv h hi hs alloc

end Reads

/-! ### Links that are given back -/

def callOf : Option Place → Option ℕ
  | some (.owner o) => o.call
  | _ => none

/-- A call is removed; nobody owns its links. -/
theorem remove_inv {conf : Conf} {st : Rctx} {own : ℕ → Option Place} (h : Inv conf st own)
    (i : ℕ) :
    Inv conf { st with calls := Function.update st.calls i none }
      fun x => if callOf (own x) = some i then none else own x := by
  set own' : ℕ → Option Place := fun x => if callOf (own x) = some i then none else own x with hown'
  have hof : ∀ x p, own' x = some p → own x = some p ∧ callOf (some p) ≠ some i := by
    intro x p hx
    by_cases hc : callOf (own x) = some i
    · simp [hown', hc] at hx
    · have hp : own x = some p := by simpa [hown', hc] using hx
      exact ⟨hp, hp ▸ hc⟩
  have hown : ∀ x p, callOf (some p) ≠ some i → (own' x = some p ↔ own x = some p) := by
    intro x p hp
    refine ⟨fun hx => (hof x p hx).1, fun hx => ?_⟩
    simp [hown', hx, hp]
  have hcalls : ∀ j, j ≠ i → Function.update st.calls i none j = st.calls j :=
    fun j hj => Function.update_of_ne hj _ _
  constructor
  · intro x hx
    simp [hown', h.fresh x hx]
  · exact exactly_frame h.pool (fun x => hown x _ (by simp [callOf])) fun x hx => rfl
  · intro o
    by_cases ho : o.call = some i
    · exact fun x hx => absurd ho (hof x _ hx).2
    · exact chained_frame (h.chained o) (fun x => hown x _ ho) fun x hx => rfl
  · exact held_frame h.free fun x => (hown x _ (by simp [callOf, Owner.call])).mpr
  · exact fun hr => exactly_frame (h.kept hr)
      (fun x => hown x _ (by simp [callOf, Owner.call])) fun x hx => rfl
  · intro x o j hx hj
    obtain ⟨hx, hc⟩ := hof x _ hx
    have hji : j ≠ i := by
      rintro rfl
      exact hc hj
    obtain ⟨call, hcall⟩ := h.live x o j hx hj
    exact ⟨call, (hcalls j hji).trans hcall⟩
  · intro j hj
    by_cases hji : j = i
    · subst hji
      exact Function.update_self ..
    · exact (hcalls j hji).trans (h.count j hj)
  · intro j call hc
    have hji : j ≠ i := by
      rintro rfl
      exact absurd ((Function.update_self j none st.calls).symm.trans hc) (by simp)
    apply callInv_frame (h.calls j call ((hcalls j hji).symm.trans hc))
    · intro x o ho
      exact (hown x _ (by simpa [callOf, ho] using hji)).mpr
    · exact fun _ x => (hown x _ (by simp [callOf, Owner.call])).mpr
    · exact fun x hx => rfl

/-- The free list becomes a chain that belongs to nobody. -/
theorem giveFree_inv {conf : Conf} {st : Rctx} {own : ℕ → Option Place} (h : Inv conf st own)
    {a : Option ℕ} {bs : List ℕ} (hs : Seg st.next a bs none)
    (hlost : ∀ x ∈ bs, own x = none ∧ x < st.fresh) :
    Inv conf { st with freeBufs := a } fun x =>
      if x ∈ bs then some (.owner .free)
      else if conf.reuses && own x = some (.owner .free) then none else own x := by
  set own' : ℕ → Option Place := fun x =>
    if x ∈ bs then some (.owner .free)
    else if conf.reuses && own x = some (.owner .free) then none else own x with hown'
  have hown : ∀ x p, p ≠ .owner .free → (own' x = some p ↔ own x = some p) := by
    intro x p hp
    by_cases hx : x ∈ bs
    · simp [hown', hx, (hlost x hx).1, hp.symm]
    · by_cases hf : own x = some (.owner .free)
      · cases hr : conf.reuses <;> simp [hown', hx, hf, hr, hp.symm]
      · simp [hown', hx, hf]
  have hfree : conf.reuses = false → ∀ x, own x = some (.owner .free) →
      own' x = some (.owner .free) := by
    intro hr x hx
    by_cases hb : x ∈ bs
    · simp [hown', hb]
    · simp [hown', hb, hr, hx]
  have hgiven : ∀ x ∈ bs, own' x = some (.owner .free) := by
    intro x hx
    simp [hown', hx]
  have hne : ∀ o : Owner, (∃ i, o.call = some i) → Place.owner o ≠ .owner .free := by
    rintro o ⟨i, hi⟩ he
    obtain rfl : o = .free := by simpa using he
    simp [Owner.call] at hi
  have hexactly : conf.reuses = true → Exactly st.next own' (.owner .free) a := by
    intro hr
    refine ⟨bs, hs, fun x => ⟨fun hx => ?_, hgiven x⟩⟩
    by_contra hb
    by_cases hf : own x = some (.owner .free) <;> simp [hown', hb, hr, hf] at hx
  have hheld : Held own' (.owner .free) a := by
    intro x hx
    cases bs with
    | nil => exact absurd (hx.symm.trans hs) (by simp)
    | cons b bs =>
      obtain rfl : x = b := Option.some.inj (hx.symm.trans hs.1)
      exact hgiven x (List.mem_cons_self ..)
  constructor
  · intro x hx
    have hb : x ∉ bs := fun hb => absurd (hlost x hb).2 (Nat.not_lt.mpr hx)
    simp [hown', hb, h.fresh x hx]
  · exact exactly_frame h.pool (fun x => hown x _ (by simp)) fun x hx => rfl
  · intro o
    by_cases ho : o = .free
    · subst ho
      intro x hx
      by_cases hb : x ∈ bs
      · obtain ⟨zs, hz, hsub⟩ := seg_suffix hs hb
        exact ⟨x :: zs, hz, fun z hm => hgiven z (hsub z hm)⟩
      · cases hr : conf.reuses with
        | true => exact exactly_chained (hexactly hr) x hx
        | false =>
          have hold : own x = some (.owner .free) := by
            simpa [hown', hb, hr] using hx
          obtain ⟨xs, hxs, hfx⟩ := h.chained .free x hold
          exact ⟨xs, hxs, fun y hy => hfree hr y (hfx y hy)⟩
    · exact chained_frame (h.chained o) (fun x => hown x _ (by simpa using ho)) fun x hx => rfl
  · exact hheld
  · exact hexactly
  · intro x o i hx hi
    exact h.live x o i ((hown x _ (hne o ⟨i, hi⟩)).mp hx) hi
  · exact h.count
  · intro i call hc
    apply callInv_frame (h.calls i call hc)
    · exact fun x o ho => (hown x _ (hne o ⟨i, ho⟩)).mpr
    · exact hfree
    · exact fun x hx => rfl

/-- A chain that belongs to nobody goes to the pool. -/
theorem givePool_inv {conf : Conf} {st : Rctx} {own : ℕ → Option Place} (h : Inv conf st own)
    {a : Option ℕ} {ls : List ℕ} (hs : Seg st.next a ls none)
    (hlost : ∀ x ∈ ls, own x = none ∧ x < st.fresh) :
    let r := pushAll st.fresh st.next st.poolChain a
    ∃ own', Inv conf { st with next := r.1, poolChain := r.2 } own' := by
  obtain ⟨ps, hps, hpool⟩ := h.pool
  have hlen : ls.length ≤ st.fresh := length_le_of_nodup (seg_nodup hs) fun x hx => (hlost x hx).2
  have hapart : ∀ x ∈ ls, x ∉ ps := by
    intro x hx hp
    exact absurd ((hlost x hx).1.symm.trans ((hpool x).mpr hp)) (by simp)
  obtain ⟨-, hkeep⟩ := pushAll_seg hs hps hapart hlen
  set own' : ℕ → Option Place := fun x => if x ∈ ls then some .pool else own x with hown'
  have hown : ∀ x o, own' x = some (.owner o) ↔ own x = some (.owner o) := by
    intro x o
    by_cases hx : x ∈ ls
    · simp [hown', hx, (hlost x hx).1]
    · simp [hown', hx]
  have hnext : ∀ x o, own x = some (.owner o) →
      (pushAll st.fresh st.next st.poolChain a).1 x = st.next x := by
    intro x o hx
    exact hkeep x fun hl => absurd ((hlost x hl).1.symm.trans hx) (by simp)
  refine ⟨own', ?_⟩
  constructor
  · intro x hx
    have hl : x ∉ ls := fun hl => absurd (hlost x hl).2 (Nat.not_lt.mpr hx)
    simp [hown', hl, h.fresh x hx]
  · apply exactly_pushAll h.pool hs (fun x hx => by simp [(hlost x hx).1]) hlen
    intro x
    by_cases hx : x ∈ ls <;> simp [hown', hx]
  · exact fun o => chained_frame (h.chained o) (fun x => hown x o) fun x hx => hnext x o hx
  · exact held_frame h.free fun x => (hown x _).mpr
  · exact fun hr => exactly_frame (h.kept hr) (fun x => hown x _) fun x hx => hnext x _ hx
  · exact fun x o i hx => h.live x o i ((hown x o).mp hx)
  · exact h.count
  · exact fun i call hc =>
      callInv_kept (h.calls i call hc) (fun x o => (hown x o).mpr) fun x hx => hnext x _ hx

/-! ### Destruction and dispatch -/

theorem owned_fresh {conf : Conf} {st : Rctx} {own : ℕ → Option Place} (h : Inv conf st own)
    {x : ℕ} {p : Place} (hx : own x = some p) : x < st.fresh := by
  by_contra hge
  exact absurd ((h.fresh x (Nat.le_of_not_lt hge)).symm.trans hx) (by simp)

theorem tcpClose_large (call : Call) : (tcpClose call).busyLargeBufs = call.busyLargeBufs := by
  unfold tcpClose
  split <;> rfl

theorem destroy_inv {conf : Conf} {st : Rctx} {own : ℕ → Option Place} {i : ℕ} {call : Call}
    (h : Inv conf st own) (hi : st.calls i = some call) :
    ∃ own', Inv conf { dispatchDestroy st call with calls := Function.update st.calls i none }
      own' := by
  have hcall := h.calls i call hi
  have hremoved := remove_inv h i
  set st₁ : Rctx := { st with calls := Function.update st.calls i none } with hst₁
  set own₁ : ℕ → Option Place := fun x => if callOf (own x) = some i then none else own x with hown₁
  have hlost : ∀ x o, o.call = some i → own x = some (.owner o) → own₁ x = none ∧ x < st₁.fresh := by
    intro x o ho hx
    refine ⟨?_, owned_fresh h hx⟩
    simp [hown₁, hx, callOf, ho]
  obtain ⟨ls, hls, hlarge⟩ := chained_seg (h.chained (.receive i)) hcall.large
  -- the free list behind the call, with the large buffers still of nobody
  have hgiven : ∃ own₂, Inv conf { st₁ with
      freeBufs := if call.reqBody.isSome then call.reqBody else st.freeBufs } own₂ ∧
      ∀ x ∈ ls, own₂ x = none ∧ x < st₁.fresh := by
    have hlsLost : ∀ x ∈ ls, own₁ x = none ∧ x < st₁.fresh :=
      fun x hx => hlost x _ rfl (hlarge x hx)
    cases hb : call.reqBody with
    | none => exact ⟨own₁, hremoved, hlsLost⟩
    | some b =>
      by_cases hs : call.state = .sending
      · have hheld := hcall.reqBody hs
        rw [hb] at hheld
        obtain ⟨bs, hbs, hreq⟩ := chained_seg (h.chained (.request i)) hheld
        have hfree := giveFree_inv hremoved hbs fun x hx => hlost x _ rfl (hreq x hx)
        refine ⟨_, hfree, fun x hx => ⟨?_, (hlsLost x hx).2⟩⟩
        have hxb : x ∉ bs := by
          intro hmem
          exact absurd ((hreq x hmem).symm.trans (hlarge x hx)) (by simp)
        simp [hxb, (hlsLost x hx).1]
      · obtain ⟨hr, hheld⟩ := hcall.sent hs
        rw [hb] at hheld
        have hfree : Held own₁ (.owner .free) (some b) :=
          held_frame hheld fun x hx => by simp [hown₁, hx, callOf, Owner.call]
        refine ⟨own₁, ?_, hlsLost⟩
        exact ⟨hremoved.fresh, hremoved.pool, hremoved.chained, hfree,
          fun hr' => absurd (hr.symm.trans hr') (by simp), hremoved.live, hremoved.count,
          fun j c hc => callInv_kept (hremoved.calls j c hc) (fun x o => id) fun x hx => rfl⟩
  obtain ⟨own₂, hinv, hlsLost⟩ := hgiven
  obtain ⟨own₃, hdone⟩ := givePool_inv hinv hls hlsLost
  refine ⟨own₃, ?_⟩
  unfold dispatchDestroy tcpDestroy
  rw [tcpClose_large]
  cases hb : call.reqBody with
  | none =>
    rw [hb] at hdone
    exact hdone
  | some b =>
    rw [hb] at hdone
    exact hdone

theorem newCall_inv {conf : Conf} {st : Rctx} {own : ℕ → Option Place} (h : Inv conf st own)
    (free : Option ℕ) :
    Inv conf { setCall st st.count { newCall with sockFreeBufs := free } with
      count := st.count + 1 } own := by
  set c₀ : Call := { newCall with sockFreeBufs := free } with hc₀
  have hcalls : ∀ j, j ≠ st.count → Function.update st.calls st.count (some c₀) j = st.calls j :=
    fun j hj => Function.update_of_ne hj _ _
  have hself : Function.update st.calls st.count (some c₀) st.count = some c₀ :=
    Function.update_self ..
  constructor
  · exact h.fresh
  · exact h.pool
  · exact h.chained
  · exact h.free
  · exact h.kept
  · intro x o j hx hj
    obtain ⟨call, hcall⟩ := h.live x o j hx hj
    refine ⟨call, (hcalls j ?_).trans hcall⟩
    rintro rfl
    exact absurd (hcall.symm.trans (h.count _ le_rfl)) (by simp)
  · intro j hj
    have hlt : st.count + 1 ≤ j := hj
    exact (hcalls j (by omega)).trans (h.count j (by omega))
  · intro j call hc
    by_cases hj : j = st.count
    · subst hj
      obtain rfl : c₀ = call := Option.some.inj (hself.symm.trans hc)
      exact ⟨fun _ => held_none, fun _ => held_none, fun _ l hl => absurd hl (by simp [hc₀, newCall]),
        fun hs => absurd rfl hs, held_none, held_none, held_none, held_none, held_none⟩
    · exact callInv_kept (h.calls j call ((hcalls j hj).symm.trans hc)) (fun x o => id)
        fun x hx => rfl

/-- A call that fails when it has its body's link gives it back. -/
theorem dispatchDestroy_new (st : Rctx) (b free : Option ℕ) :
    dispatchDestroy st { newCall with reqBody := b, sockFreeBufs := free } =
      { st with freeBufs := if b.isSome then b else st.freeBufs } := by
  have hnone : ∀ k, pushAll k st.next st.poolChain none = (st.next, st.poolChain) := by
    intro k
    cases k <;> rfl
  cases b <;> simp [dispatchDestroy, tcpDestroy, tcpClose, newCall, hnone]

theorem dispatch_inv {conf : Conf} {st : Rctx} {own : ℕ → Option Place} (h : Inv conf st own)
    (hasBody : Bool) (alloc : Alloc) (failure : Option Failure) :
    ∃ own', Inv conf (dispatch conf st hasBody alloc failure) own' := by
  by_cases hearly : failure = some .beforeBody
  · simp only [dispatch, hearly, if_true]
    exact ⟨own, h⟩
  · have hreuse : conf.sockBufferReuse = true → conf.reuses = true := by
      intro hr
      simp [Conf.reuses, hr]
    obtain ⟨own', htook⟩ := getFreeBuf_inv h alloc conf.sockBufferReuse hreuse
    cases hasBody with
    | false =>
      simp only [dispatch, hearly, if_false, Bool.false_eq_true, Bool.false_and]
      split
      · rw [dispatchDestroy_new]
        exact ⟨own, h⟩
      · exact ⟨own, newCall_inv h st.freeBufs⟩
    | true =>
      simp only [dispatch, hearly, if_false, if_true, Bool.true_and]
      generalize chainGetFreeBuf st st.freeBufs alloc conf.sockBufferReuse = r at htook
      obtain ⟨st₁, free, cl⟩ := r
      set st' : Rctx := { st₁ with freeBufs := free } with hst'
      cases cl with
      | none => exact ⟨own', htook.inv⟩
      | some b =>
        have hloose := htook.loose b rfl
        simp only [Option.isNone_some, Bool.false_eq_true, if_false]
        split
        · -- the body's link goes back when the call is destroyed
          have hseg : Seg st₁.next (some b) [b] none := ⟨rfl, hloose.next⟩
          have hfree := giveFree_inv htook.inv hseg (by simpa using ⟨hloose.lost, hloose.fresh⟩)
          rw [dispatchDestroy_new]
          exact ⟨_, hfree⟩
        · set c₀ : Call := { newCall with sockFreeBufs := free } with hc₀
          set st₂ : Rctx := { setCall st' st'.count c₀ with count := st'.count + 1 } with hst₂
          have hnew : Inv conf st₂ own' := newCall_inv htook.inv free
          have hi : st₂.calls st'.count = some c₀ := Function.update_self ..
          have hloose₂ : Loose st₂ own' b := ⟨hloose.lost, hloose.next, hloose.fresh⟩
          have hattached := attach_inv hnew hloose₂ (o := .request st'.count) (by simp)
            fun j hj => (Option.some.inj hj) ▸ ⟨c₀, hi⟩
          have hset : Inv conf (setCall st₂ st'.count { c₀ with reqBody := some b }) _ :=
            setCall_inv hattached hi ?_
          · have hsame : setCall st₂ st'.count { c₀ with reqBody := some b } =
                { setCall st' st'.count { newCall with reqBody := some b, sockFreeBufs := free } with
                  count := st'.count + 1 } := by
              simp [setCall, hst₂, hc₀]
            rw [hsame] at hset
            exact ⟨_, hset⟩
          · exact ⟨fun _ => held_none, fun _ => held_some (Function.update_self ..),
              fun _ l hl => absurd hl (by simp [hc₀, newCall]), fun hs => absurd rfl hs, held_none,
              held_none, held_none, held_none, held_none⟩

/-! ### Requests -/

section Requests

variable {conf : Conf} {st : Rctx} {own : ℕ → Option Place} {i : ℕ} {call : Call}

theorem dispatchRequest_inv (h : Inv conf st own) (hi : st.calls i = some call)
    (hs : call.state = .sending) (alloc : Alloc) :
    let r := dispatchRequest conf st call alloc
    ∃ own', Inv conf r.1 own' ∧ CallInv conf r.1 own' i r.2 ∧ r.1.calls i = some call ∧
      r.2.state = .sending := by
  have hcall := h.calls i call hi
  cases hout : call.reqOut with
  | some l =>
    simp only [dispatchRequest, hout]
    exact ⟨own, h, hcall, hi, hs⟩
  | none =>
    have hreuse : conf.sockBufferReuse = true → conf.reuses = true := by
      intro hr
      simp [Conf.reuses, hr]
    obtain ⟨own', htook⟩ := getFreeBuf_inv h alloc conf.sockBufferReuse hreuse
    simp only [dispatchRequest, hout]
    generalize chainGetFreeBuf st st.freeBufs alloc conf.sockBufferReuse = r at htook
    obtain ⟨st₁, free, cl⟩ := r
    set st' : Rctx := { st₁ with freeBufs := free } with hst'
    obtain ⟨hi', hcall'⟩ := took_call htook hi
    cases cl with
    | none => exact ⟨own', htook.inv, hcall', hi', hs⟩
    | some nl =>
      have hloose := htook.loose nl rfl
      set own₁ := Function.update own' nl (some (.owner (.request i))) with hown₁
      have hnl : own₁ nl = some (.owner (.request i)) := Function.update_self ..
      have hattached : Inv conf st' own₁ :=
        attach_inv htook.inv hloose (by simp) fun j hj => (Option.some.inj hj) ▸ ⟨call, hi'⟩
      have hbuilt : ∀ st₂, Inv conf st₂ own₁ → st₂.calls i = some call →
          st₂.next nl = call.reqBody →
          CallInv conf st₂ own₁ i { call with reqOut := some nl } := by
        intro st₂ hinv hc hn
        obtain ⟨-, hbody, -, hsent, hin, hlast, hlarge, hchunks, hresp⟩ := hinv.calls i call hc
        refine ⟨fun _ => held_some hnl, hbody, fun _ l hl => ?_, hsent, hin, hlast, hlarge, hchunks,
          hresp⟩
        obtain rfl : nl = l := Option.some.inj hl
        exact hn
      cases hb : call.reqBody with
      | none =>
        have hdone := hbuilt st' hattached hi' (hloose.next.trans hb.symm)
        simp only [hb] at hdone
        exact ⟨own₁, hattached, hdone, hi', hs⟩
      | some b =>
        have hbheld : Held own' (.owner (.request i)) (some b) := hb ▸ hcall'.reqBody hs
        obtain ⟨bs, hbs, hreq⟩ := chained_seg (htook.inv.chained (.request i)) hbheld
        have hnbs : nl ∉ bs := fun hmem => absurd ((hreq nl hmem).symm.trans hloose.lost) (by simp)
        have hlinked : Inv conf (setNext st' nl (some b)) own₁ := by
          apply relink_inv hattached hnl (by simp) hbs _ hnbs
          · intro j c hj hsj houtj
            have hheld := (htook.inv.calls j c hj).reqOut hsj nl houtj
            exact absurd (hheld.symm.trans hloose.lost) (by simp)
          · intro y hy
            have hne : y ≠ nl := by
              rintro rfl
              exact hnbs hy
            rw [hown₁, Function.update_of_ne hne]
            exact hreq y hy
        have hn : (setNext st' nl (some b)).next nl = call.reqBody :=
          (Function.update_self ..).trans hb.symm
        have hdone := hbuilt _ hlinked hi' hn
        simp only [hb] at hdone
        exact ⟨own₁, hlinked, hdone, hi', hs⟩

/-- The chain of a request that is sent has its body in it. -/
theorem request_chain (h : Inv conf st own) (hcall : CallInv conf st own i call)
    (hs : call.state = .sending) {nl : ℕ} (hout : call.reqOut = some nl) :
    ∃ xs, Seg st.next (some nl) (nl :: xs) none ∧
      (∀ x ∈ nl :: xs, own x = some (.owner (.request i))) ∧ ∀ b, call.reqBody = some b → b ∈ xs := by
  have hheld := hcall.reqOut hs
  rw [hout] at hheld
  obtain ⟨xs, hxs, hreq⟩ := chained_seg (h.chained (.request i)) hheld
  cases xs with
  | nil => exact absurd hxs (by simp [Seg])
  | cons x xs =>
    obtain rfl : nl = x := Option.some.inj hxs.1
    refine ⟨xs, hxs, hreq, fun b hb => ?_⟩
    have hnext : st.next nl = some b := (hcall.linked hs nl hout).trans hb
    have htail := hxs.2
    rw [hnext] at htail
    cases xs with
    | nil => exact absurd htail (by simp [Seg])
    | cons y ys =>
      rw [Option.some.inj htail.1]
      exact List.mem_cons_self ..

/-- Without reuse the links of a request that has been sent go to the free list. -/
theorem sent_inv (h : Inv conf st own) (hi : ∃ old, st.calls i = some old)
    (hcall : CallInv conf st own i call) (hs : call.state = .sending) (hr : conf.reuses = false)
    (hout : call.reqOut.isSome) :
    ∃ own', Inv conf (setCall (chainUpdateChains st call.reqOut) i
      { call with state := .receiving }) own' := by
  obtain ⟨nl, hnl⟩ := Option.isSome_iff_exists.mp hout
  obtain ⟨xs', hxs, hreq, hbody⟩ := request_chain h hcall hs hnl
  set xs := nl :: xs' with hxsdef
  have hlen : xs.length ≤ st.fresh :=
    length_le_of_nodup (seg_nodup hxs) fun x hx => owned_fresh h (hreq x hx)
  set own' : ℕ → Option Place := fun x =>
    if x ∈ xs then some (.owner .free)
    else if own x = some (.owner (.request i)) then none else own x with hown'
  have hown : ∀ x p, p ≠ .owner .free → p ≠ .owner (.request i) →
      (own' x = some p ↔ own x = some p) := by
    intro x p hf hq
    by_cases hx : x ∈ xs
    · simp [hown', hx, hreq x hx, hf.symm, hq.symm]
    · by_cases hi : own x = some (.owner (.request i))
      · simp [hown', hx, hi, hq.symm]
      · simp [hown', hx, hi]
  have hfree : ∀ x, own' x = some (.owner .free) ↔ x ∈ xs ∨ own x = some (.owner .free) := by
    intro x
    by_cases hx : x ∈ xs
    · simp [hown', hx]
    · by_cases hi : own x = some (.owner (.request i))
      · simp [hown', hx, hi]
      · simp [hown', hx, hi]
  have hnone : ∀ x, own' x ≠ some (.owner (.request i)) := by
    intro x hx
    by_cases hm : x ∈ xs
    · simp [hown', hm] at hx
    · by_cases hi : own x = some (.owner (.request i))
      · simp [hown', hm, hi] at hx
      · simp [hown', hm, hi] at hx
  obtain ⟨ts, hts, hheld⟩ := chained_seg (h.chained .free) h.free
  have hapart : ∀ x ∈ xs, x ∉ ts :=
    fun x hx ht => absurd ((hreq x hx).symm.trans (hheld x ht)) (by simp)
  obtain ⟨-, hkeep⟩ := pushAll_seg hxs hts hapart hlen
  obtain ⟨hchained, htop⟩ := chained_pushAll (h.chained .free) h.free hxs
    (fun x hx => by simp [hreq x hx]) hlen hfree
  have hnext : ∀ x p, p ≠ .owner (.request i) → own x = some p →
      (pushAll st.fresh st.next st.freeBufs (some nl)).1 x = st.next x := by
    intro x p hp hx
    exact hkeep x fun hm => hp (Option.some.inj (hx.symm.trans (hreq x hm)))
  have hpushed : Inv conf { chainUpdateChains st (some nl) with
      calls := Function.update st.calls i (some { call with state := .receiving }) } own' := by
    constructor
    · intro x hx
      have hxn : own x = none := h.fresh x hx
      have hm : x ∉ xs := fun hm => absurd ((hreq x hm).symm.trans hxn) (by simp)
      simp [hown', hm, hxn]
    · exact exactly_frame h.pool (fun x => hown x _ (by simp) (by simp))
        fun x hx => hnext x _ (by simp) hx
    · intro o
      by_cases hf : o = .free
      · subst hf
        exact hchained
      · by_cases hq : o = .request i
        · subst hq
          exact fun x hx => absurd hx (hnone x)
        · exact chained_frame (h.chained o)
            (fun x => hown x _ (by simpa using hf) (by simpa using hq))
            fun x hx => hnext x _ (by simpa using hq) hx
    · exact htop
    · exact fun hr' => absurd (hr.symm.trans hr') (by simp)
    · intro x o j hx hj
      by_cases hji : j = i
      · subst hji
        exact ⟨_, Function.update_self ..⟩
      · have hf : o ≠ .free := by
          rintro rfl
          simp [Owner.call] at hj
        have hq : o ≠ .request i := by
          rintro rfl
          exact hji (Option.some.inj hj).symm
        obtain ⟨c, hc⟩ := h.live x o j
          ((hown x _ (by simpa using hf) (by simpa using hq)).mp hx) hj
        exact ⟨c, (Function.update_of_ne hji _ _).trans hc⟩
    · intro j hj
      have hnj := h.count j hj
      obtain ⟨old, hold⟩ := hi
      have hji : j ≠ i := by
        rintro rfl
        exact absurd (hold.symm.trans hnj) (by simp)
      exact (Function.update_of_ne hji _ _).trans hnj
    · intro j c hc
      by_cases hji : j = i
      · subst hji
        obtain rfl : { call with state := State.receiving } = c :=
          Option.some.inj ((Function.update_self j _ st.calls).symm.trans hc)
        have hkept : ∀ x o, o = .receive j ∨ o = .response j → own x = some (.owner o) →
            own' x = some (.owner o) := by
          intro x o ho
          apply (hown x _ _ _).mpr
          · rcases ho with rfl | rfl <;> simp
          · rcases ho with rfl | rfl <;> simp
        refine ⟨fun hst => by simp at hst, fun hst => by simp at hst, fun hst => by simp at hst,
          fun _ => ⟨hr, fun b hb => ?_⟩, held_frame hcall.bufsIn fun x => hkept x _ (.inl rfl),
          held_frame hcall.bufIn fun x => hkept x _ (.inl rfl),
          held_frame hcall.large fun x => hkept x _ (.inl rfl),
          held_frame hcall.chunks fun x => hkept x _ (.inr rfl),
          held_frame hcall.body fun x => hkept x _ (.inr rfl)⟩
        exact (hfree b).mpr (.inl (List.mem_cons_of_mem _ (hbody b hb)))
      · have hcj := (Function.update_of_ne hji _ _).symm.trans hc
        apply callInv_frame (h.calls j c hcj)
        · intro x o ho
          apply (hown x _ _ _).mpr
          · rintro he
            obtain rfl : o = .free := by simpa using he
            simp [Owner.call] at ho
          · rintro he
            obtain rfl : o = .request i := by simpa using he
            exact hji (Option.some.inj ho).symm
        · exact fun _ x hx => (hfree x).mpr (.inr hx)
        · exact fun x hx => hnext x _ (by simpa using hji) hx
  have hsame : chainUpdateChains st call.reqOut = chainUpdateChains st (some nl) := by rw [hnl]
  rw [hsame]
  exact ⟨own', hpushed⟩

end Requests

/-! ### Steps -/

theorem next_inv {conf : Conf} {st : Rctx} {own : ℕ → Option Place} {c : Input}
    (h : Inv conf st own) (hc : conf.reuses = true → ¬ Completes conf st c) :
    ∃ own', Inv conf (next conf st c) own' := by
  cases c with
  | dispatch hasBody alloc failure => exact dispatch_inv h hasBody alloc failure
  | send i alloc sent =>
    cases hi : st.calls i with
    | none =>
      simp only [next, hi]
      exact ⟨own, h⟩
    | some call =>
      by_cases hs : call.state = .sending
      · obtain ⟨own', hinv, hcall, hi', hs'⟩ := dispatchRequest_inv h hi hs alloc
        simp only [next, hi, hs, if_true, sendRequest]
        split
        · rename_i hdone
          have hr : conf.reuses = false := by
            cases hr : conf.reuses with
            | false => rfl
            | true => exact absurd ⟨call, hi, hs, hdone⟩ (hc hr)
          simp only [completes, Bool.and_eq_true] at hdone
          exact sent_inv hinv ⟨call, hi'⟩ hcall hs' hr hdone.1.2
        · exact ⟨own', setCall_inv hinv hi' hcall⟩
      · simp only [next, hi, hs, if_false]
        exact ⟨own, h⟩
  | read i read =>
    cases hi : st.calls i with
    | none =>
      simp only [next, hi]
      exact ⟨own, h⟩
    | some call =>
      by_cases hs : call.state = .receiving
      · simp only [next, hi, hs, if_true]
        exact runRead_inv h hi hs read
      · simp only [next, hi, hs, if_false]
        exact ⟨own, h⟩
  | received i =>
    cases hi : st.calls i with
    | none =>
      simp only [next, hi]
      exact ⟨own, h⟩
    | some call =>
      by_cases hs : call.state = .receiving
      · simp only [next, hi, hs, if_true]
        obtain ⟨-, -, -, hsent, hin, hlast, hlarge, hchunks, hresp⟩ := h.calls i call hi
        have hfree := hsent (by rw [hs]; decide)
        refine ⟨own, setCall_inv h hi ?_⟩
        unfold tcpClose
        split
        · exact ⟨fun hst => by simp at hst, fun hst => by simp at hst, fun hst => by simp at hst,
            fun _ => hfree, held_none, held_none, hlarge, hchunks, hresp⟩
        · exact ⟨fun hst => by simp at hst, fun hst => by simp at hst, fun hst => by simp at hst,
            fun _ => hfree, hin, hlast, hlarge, hchunks, hresp⟩
      · simp only [next, hi, hs, if_false]
        exact ⟨own, h⟩
  | destroy i =>
    cases hi : st.calls i with
    | none =>
      simp only [next, hi]
      exact ⟨own, h⟩
    | some call =>
      simp only [next, hi]
      exact destroy_inv h hi

def AllSending (st : Rctx) : Prop := ∀ i call, st.calls i = some call → call.state = .sending

theorem getFreeBuf_calls (st : Rctx) (free : Option ℕ) (alloc : Alloc) (reuse : Bool) :
    (chainGetFreeBuf st free alloc reuse).1.calls = st.calls := by
  have hlink : (allocChainLink st).1.calls = st.calls := by
    unfold allocChainLink
    split <;> rfl
  unfold chainGetFreeBuf
  split
  · rfl
  · cases alloc with
    | noLink => rfl
    | noBuf => exact hlink
    | ok => exact hlink

theorem dispatchDestroy_calls (st : Rctx) (call : Call) :
    (dispatchDestroy st call).calls = st.calls := by
  unfold dispatchDestroy
  split <;> rfl

theorem dispatchRequest_calls (conf : Conf) (st : Rctx) (call : Call) (alloc : Alloc) :
    (dispatchRequest conf st call alloc).1.calls = st.calls ∧
      (dispatchRequest conf st call alloc).2.state = call.state := by
  have hcalls := getFreeBuf_calls st st.freeBufs alloc conf.sockBufferReuse
  unfold dispatchRequest
  cases call.reqOut with
  | some l => exact ⟨rfl, rfl⟩
  | none =>
    dsimp only
    split
    · exact ⟨hcalls, rfl⟩
    · refine ⟨?_, rfl⟩
      split <;> exact hcalls

theorem setCall_sending {st : Rctx} {i : ℕ} {call : Call} (h : AllSending st)
    (hs : call.state = .sending) : AllSending (setCall st i call) := by
  intro j c hc
  by_cases hji : j = i
  · subst hji
    have hself : (setCall st j call).calls j = some call := Function.update_self ..
    rw [← Option.some.inj (hself.symm.trans hc)]
    exact hs
  · exact h j c ((Function.update_of_ne hji _ _).symm.trans hc)

theorem next_sending {conf : Conf} {st : Rctx} {c : Input} (h : AllSending st)
    (hc : ¬ Completes conf st c) : AllSending (next conf st c) := by
  have hcalls : ∀ st' : Rctx, st'.calls = st.calls → AllSending st' := by
    intro st' he j call hj
    exact h j call (he ▸ hj)
  cases c with
  | dispatch hasBody alloc failure =>
    set r := if hasBody then chainGetFreeBuf st st.freeBufs alloc conf.sockBufferReuse
      else (st, st.freeBufs, none) with hr
    have hkept : r.1.calls = st.calls := by
      cases hasBody with
      | true => exact getFreeBuf_calls ..
      | false => rfl
    show AllSending (dispatch conf st hasBody alloc failure)
    by_cases hearly : failure = some .beforeBody
    · simp only [dispatch, hearly, if_true]
      exact h
    · simp only [dispatch, hearly, if_false, ← hr]
      split
      · exact hcalls _ hkept
      · split
        · exact hcalls _ ((dispatchDestroy_calls ..).trans hkept)
        · exact setCall_sending (hcalls { r.1 with freeBufs := r.2.1 } hkept) rfl
  | send i alloc sent =>
    cases hi : st.calls i with
    | none => simpa only [next, hi] using h
    | some call =>
      by_cases hs : call.state = .sending
      · obtain ⟨hkept, hstate⟩ := dispatchRequest_calls conf st call alloc
        simp only [next, hi, hs, if_true, sendRequest]
        split
        · rename_i hdone
          exact absurd ⟨call, hi, hs, hdone⟩ hc
        · exact setCall_sending (hcalls _ hkept) (hstate.trans hs)
      · exact absurd (h i call hi) hs
  | read i read =>
    cases hi : st.calls i with
    | none => simpa only [next, hi] using h
    | some call => simpa [next, hi, h i call hi] using h
  | received i =>
    cases hi : st.calls i with
    | none => simpa only [next, hi] using h
    | some call => simpa [next, hi, h i call hi] using h
  | destroy i =>
    cases hi : st.calls i with
    | none => simpa only [next, hi] using h
    | some call =>
      simp only [next, hi]
      intro j c hj
      by_cases hji : j = i
      · subst hji
        exact absurd ((Function.update_self ..).symm.trans hj) (by simp)
      · exact h j c ((Function.update_of_ne hji _ _).symm.trans hj)

/-! ### Runs -/

theorem unique_of_held {nxt : ℕ → Option ℕ} {own : ℕ → Option Place}
    {begins : Owner → List (Option ℕ)} (h : ∀ o, Chained nxt own (.owner o))
    (hheld : ∀ o a, a ∈ begins o → Held own (.owner o) a) : Unique nxt begins := by
  constructor
  · intro o o' a a' x hne ha ha' hr hr'
    have hx := reaches_held (h o) (hheld o a ha) hr
    have hx' := reaches_held (h o') (hheld o' a' ha') hr'
    exact hne (Place.owner.inj (Option.some.inj (hx.symm.trans hx')))
  · intro o a ha
    obtain ⟨xs, hxs, -⟩ := chained_seg (h o) (hheld o a ha)
    exact ⟨xs, hxs, seg_nodup hxs⟩

theorem heads_held {conf : Conf} {st : Rctx} {own : ℕ → Option Place} (h : Inv conf st own)
    {o : Owner} {a : Option ℕ} (ha : a ∈ heads st o)
    (hs : ∀ i call, o = .request i → st.calls i = some call → call.state = .sending) :
    Held own (.owner o) a := by
  have hcall : ∀ i f, a ∈ callHeads st i f → ∃ call, st.calls i = some call ∧ a ∈ f call := by
    intro i f hmem
    unfold callHeads at hmem
    split at hmem
    · exact ⟨_, ‹_›, hmem⟩
    · simp at hmem
  cases o with
  | free =>
    rw [List.mem_singleton.mp ha]
    exact h.free
  | request i =>
    obtain ⟨call, hi, hmem⟩ := hcall i _ ha
    have hst := hs i call rfl hi
    simp only [List.mem_cons, List.not_mem_nil, or_false] at hmem
    rcases hmem with rfl | rfl
    · exact (h.calls i call hi).reqOut hst
    · exact (h.calls i call hi).reqBody hst
  | receive i =>
    obtain ⟨call, hi, hmem⟩ := hcall i _ ha
    simp only [List.mem_cons, List.not_mem_nil, or_false] at hmem
    rcases hmem with rfl | rfl
    · exact (h.calls i call hi).bufsIn
    · exact (h.calls i call hi).large
  | response i =>
    obtain ⟨call, hi, hmem⟩ := hcall i _ ha
    simp only [List.mem_cons, List.not_mem_nil, or_false] at hmem
    rcases hmem with rfl | rfl
    · exact (h.calls i call hi).chunks
    · exact (h.calls i call hi).body

theorem inUse_unique {conf : Conf} {st : Rctx} {own : ℕ → Option Place} (h : Inv conf st own) :
    Unique st.next (headsInUse st) := by
  apply unique_of_held h.chained
  intro o a ha
  cases o with
  | request i =>
    cases hi : st.calls i with
    | none => simp [headsInUse, callHeads, hi] at ha
    | some call =>
      by_cases hs : call.state = .sending
      · apply heads_held h (o := .request i)
        · simpa [headsInUse, heads, callHeads, hi, hs] using ha
        · rintro j c ⟨⟩ hj
          rw [← Option.some.inj (hi.symm.trans hj)]
          exact hs
      · simp [headsInUse, callHeads, hi, hs] at ha
  | free => exact heads_held h ha (by simp)
  | receive i => exact heads_held h ha (by simp)
  | response i => exact heads_held h ha (by simp)

/-- A request that is sent completely is on the free list and still the call's. -/
theorem completes_shares {conf : Conf} {st : Rctx} {own : ℕ → Option Place} {c : Input}
    (h : Inv conf st own) (hc : Completes conf st c) :
    ¬ Unique (next conf st c).next (heads (next conf st c)) := by
  cases c with
  | send i alloc sent =>
    obtain ⟨call, hi, hs, hdone⟩ := hc
    obtain ⟨own', hinv, hcall, -, hs'⟩ := dispatchRequest_inv h hi hs alloc
    simp only [next, hi, hs, if_true, sendRequest, hdone]
    generalize dispatchRequest conf st call alloc = r at hinv hcall hs' hdone
    simp only [completes, Bool.and_eq_true] at hdone
    obtain ⟨nl, hnl⟩ := Option.isSome_iff_exists.mp hdone.1.2
    obtain ⟨xs, hxs, hreq, -⟩ := request_chain hinv hcall hs' hnl
    obtain ⟨ts, hts, hfree⟩ := chained_seg (hinv.chained .free) hinv.free
    have hlen : (nl :: xs).length ≤ r.1.fresh :=
      length_le_of_nodup (seg_nodup hxs) fun x hx => owned_fresh hinv (hreq x hx)
    obtain ⟨hpushed, -⟩ := pushAll_seg hxs hts
      (fun x hx ht => absurd ((hreq x hx).symm.trans (hfree x ht)) (by simp)) hlen
    rw [hnl]
    intro hu
    apply hu.apart .free (.request i) _ (some nl) nl (by simp) (List.mem_singleton.mpr rfl)
    · simp [heads, callHeads, setCall]
    · exact reaches_seg hpushed (by simp)
    · exact ⟨1, by simp [walk]⟩
  | dispatch hasBody alloc failure => exact hc.elim
  | read i read => exact hc.elim
  | received i => exact hc.elim
  | destroy i => exact hc.elim

theorem newRctx_inv (conf : Conf) : Inv conf newRctx fun _ => none := by
  have hempty : ∀ p, Exactly newRctx.next (fun _ => (none : Option Place)) p none :=
    fun p => ⟨[], rfl, by simp⟩
  exact ⟨fun _ _ => rfl, hempty .pool, fun o => exactly_chained (hempty _), held_none,
    fun _ => hempty _, fun x o i hx => by simp at hx, fun i _ => rfl,
    fun i call hc => absurd hc (by simp [newRctx])⟩

theorem run_unique_iff (conf : Conf) (inputs : List Input) :
    ∀ st, (∃ own, Inv conf st own) → AllSending st →
      ((∀ before, before <+: inputs → Unique (exec (step conf) st before).1.next
          (heads (exec (step conf) st before).1)) ↔
        Meets (step conf) (fun st c => ¬ Completes conf st c) st inputs) := by
  have hnow : ∀ st, (∃ own, Inv conf st own) → AllSending st → Unique st.next (heads st) := by
    intro st hinv hs
    obtain ⟨own, h⟩ := hinv
    exact unique_of_held h.chained fun o a ha => heads_held h ha fun i call _ hi => hs i call hi
  induction inputs with
  | nil =>
    intro st hinv hs
    refine ⟨fun _ => trivial, fun _ before hb => ?_⟩
    rw [List.prefix_nil.mp hb]
    exact hnow st hinv hs
  | cons c inputs ih =>
    intro st hinv hs
    obtain ⟨own, h⟩ := hinv
    constructor
    · intro hall
      have hc : ¬ Completes conf st c := fun hc =>
        completes_shares h hc (hall [c] (List.prefix_iff_eq_append.mpr rfl))
      refine ⟨hc, (ih _ (next_inv h fun _ => hc) (next_sending hs hc)).mp ?_⟩
      intro before hb
      exact hall (c :: before) ((List.prefix_cons_inj c).mpr hb)
    · rintro ⟨hc, hm⟩ before hb
      cases before with
      | nil => exact hnow st ⟨own, h⟩ hs
      | cons d before =>
        obtain ⟨rfl, htail⟩ := List.cons_prefix_cons.mp hb
        exact (ih _ (next_inv h fun _ => hc) (next_sending hs hc)).mpr hm before htail

/-- No link is ever shared exactly if no request is ever sent completely. Without
reuse a link is never shared by two owners that still use it, in any run. -/
theorem unique_iff_unsent (conf : Conf) (inputs : List Input) :
    ((∀ before, before <+: inputs → Unique (exec (step conf) newRctx before).1.next
        (heads (exec (step conf) newRctx before).1)) ↔
      Meets (step conf) (fun st c => ¬ Completes conf st c) newRctx inputs) ∧
    (conf.reuses = false → ∀ before, before <+: inputs →
      Unique (exec (step conf) newRctx before).1.next
        (headsInUse (exec (step conf) newRctx before).1)) := by
  constructor
  · exact run_unique_iff conf inputs newRctx ⟨_, newRctx_inv conf⟩ fun i call hc => by
      simp [newRctx] at hc
  · intro hr before _
    have hinv : ∃ own, Inv conf (exec (step conf) newRctx before).1 own := by
      apply exec_invariant (step conf) (fun _ _ => True) fun st => ∃ own, Inv conf st own
      · rintro st c ⟨own, h⟩ -
        exact next_inv h fun hr' => absurd (hr.symm.trans hr') (by simp)
      · exact ⟨_, newRctx_inv conf⟩
      · exact meets_of_forall _ (fun _ => True) before _ fun _ _ => trivial
    obtain ⟨own, h⟩ := hinv
    exact inUse_unique h

/-- The callback of a call dispatches another one, which takes the link of the
body of the first; then the first call gives that link back. -/
def nested : List Input :=
  [.dispatch true .ok none, .send 0 .ok true, .read 0 (.buffer .ok), .received 0,
    .dispatch true .ok none, .destroy 0]

/-- The next request is linked to itself. -/
theorem nested_shares :
    ¬ Unique (exec (step ⟨true, true⟩) newRctx nested).1.next
        (headsInUse (exec (step ⟨true, true⟩) newRctx nested).1) ∧
      ¬ Unique (exec (step ⟨true, true⟩) newRctx nested).1.next
        (heads (exec (step ⟨true, true⟩) newRctx nested).1) ∧
      (exec (step ⟨true, true⟩) newRctx (nested ++ [.send 1 .ok false])).1.next 0 = some 0 := by
  have hzero : Reaches (exec (step ⟨true, true⟩) newRctx nested).1.next (some 0) 0 :=
    ⟨1, List.mem_cons_self ..⟩
  refine ⟨fun h => ?_, fun h => ?_, by decide⟩
  · exact h.apart .free (.request 1) (some 0) (some 0) 0 (by decide) (by decide) (by decide) hzero hzero
  · exact h.apart .free (.request 1) (some 0) (some 0) 0 (by decide) (by decide) (by decide) hzero hzero

end NgxWasm.Http.DispatchUnique
