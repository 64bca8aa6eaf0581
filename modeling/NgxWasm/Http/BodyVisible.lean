import NgxWasm.Http.BodyBytes

/-!
# Runs of the response buffering

A call is judged link by link, in the state in which the code reaches the link.
-/

namespace NgxWasm.Http.BodyVisible
open NgxWasm.Lib Links Run NgxWasm.Http.BodyBuffer NgxWasm.Http.BodyBytes

section
variable (conf : Conf) (alloc : ℕ → Option ℕ)

/-! ### Condition on one link -/

def room (st : Rctx) : Option ℕ → ℕ
  | none => 0
  | some c => (st.link c).room

def Anchored (st : Rctx) : Prop := st.respBufs = none ∨ st.respBufLast ≠ none

def Clear (st : Rctx) : Prop := ∀ x ∈ (links st st.respBufs).dropLast, flagged st x = false

instance (st : Rctx) : Decidable (Clear st) :=
  inferInstanceAs (Decidable (∀ x ∈ (links st st.respBufs).dropLast, flagged st x = false))

def EmptyLegal (st : Rctx) (ll : ℕ) (rest : List ℕ) : Prop :=
  ¬ Carries st ∧ (flagged st ll = true → rest = [] ∧ Anchored st)

/-- Bytes do not get behind a flagged link: they fit into the last link, or that
link is not flagged afterwards, and neither is any other link among which they
are split. -/
def BytesLegal (st : Rctx) (cl : Option ℕ) (ll : ℕ) (rest : List ℕ) : Prop :=
  Anchored st ∧ Clear st ∧ (room st cl < (data st ll).length →
    (room st cl ≠ 0 → flagged st ll = false) ∧
    (room st cl = 0 → ∀ l, st.respBufLast = some l → flagged st l = false) ∧
    (flagged st ll = true → st.respBufsCount < conf.num →
      (data st ll).length ≤ newRoom conf alloc st.respBufsCount) ∧
    (room st cl + freeRoom conf alloc st.respBufsCount < (data st ll).length →
      SpliceOk st (ll :: rest)))

/-- Every link of the input meets its condition when the code reaches it. -/
def ChainLegal : List ℕ → Rctx → Option ℕ → Prop
  | [], _, _ => True
  | ll :: rest, st, cl =>
    if data st ll = [] then
      EmptyLegal st ll rest ∧ ∀ st', linkEmpty st ll = some st' → ChainLegal rest st' cl
    else
      let r := bufferWhile conf alloc ll rest ((data st ll).length + 2) st cl
      BytesLegal conf alloc st cl ll rest ∧ (r.2.2 = .ok → ChainLegal rest r.1 r.2.1)

/-! ### One call -/

def Used (st : Rctx) (ids : List ℕ) : Prop :=
  st.respBufs ≠ none ∨ ∃ a ∈ ids, flagged st a = true

structure LinksSpec (st : Rctx) (g : Bytes) (fin : Bool) (ids : List ℕ) (r : Rctx × Ret) :
    Prop where
  ok : r.2 = .ok → (Used st ids → r.1.respBufs ≠ none) ∧
    ∃ chain, Held r.1 (g ++ ids.flatMap (data st)) chain ∧ Waiting r.1 chain [] ∧
      (Carries r.1 → lastFlag st ids fin = true)
  done : r.2 = .done → r.1.respBufs ≠ none ∧
    Shown r.1 (g ++ ids.flatMap (data st)) (lastFlag st ids fin)
  returns : r.2 ≠ .fault

def Current (st : Rctx) (cl : Option ℕ) : Prop := cl = none ∨ cl = st.respBufLast

variable {conf alloc}

theorem clear_not_closed {st : Rctx} {xs : List ℕ} {l : ℕ} {ids : List ℕ} (h : Clear st)
    (hs : Seg (next st) st.respBufs (xs ++ [l]) none) (hw : Waiting st (xs ++ [l]) ids) :
    ∀ x ∈ xs, flagged st x = false := by
  have hlinks : links st st.respBufs = xs ++ [l] :=
    links_eq hs (List.Nodup.of_append_left hw.nodup)
      fun x hx => hw.bound x (List.mem_append_left _ hx)
  intro x hx
  apply h x
  rw [hlinks, List.dropLast_concat]
  exact hx

theorem bytes_spec {st : Rctx} {g : Bytes} {chain : List ℕ} {ll : ℕ} {rest : List ℕ}
    {cl : Option ℕ} (h : Held st g chain) (hw : Waiting st chain (ll :: rest))
    (hm : Every InMemory st) (hcl : Current st cl) (hd : data st ll ≠ []) (hl : BytesLegal conf alloc st cl ll rest) :
    WhileSpec st g ll rest
      (bufferWhile conf alloc ll rest ((data st ll).length + 2) st cl) := by
  obtain ⟨hanch, hclear, hroom⟩ := hl
  have hpos : 0 < (data st ll).length := List.length_pos_iff.mpr hd
  cases h with
  | empty hr hlast hc =>
    have hnone : cl = none := by
      rcases hcl with hcl | hcl
      · exact hcl
      · rw [hcl, hlast]
    subst hnone
    obtain ⟨-, -, h3, h4⟩ := hroom hpos
    exact while_none _ (.empty hr hlast hc) hw hm hd (by omega) h3 fun hf => h4 (by simpa [room] using hf)
  | lone e hr hlast =>
    rcases hanch with ha | ha
    · exact absurd (ha.symm.trans hr) (by simp)
    · exact absurd hlast ha
  | filled xs l g hf =>
    rcases hcl with rfl | hcl
    · obtain ⟨-, h2, h3, h4⟩ := hroom hpos
      exact while_none _ (.filled xs l g hf (h2 rfl l hf.last)) hw hm hd (by omega) h3
        fun hfr => h4 (by simpa [room] using hfr)
    · rw [hf.last] at hcl
      subst hcl
      apply while_some hf hw hm hd (by omega)
      intro hlt
      obtain ⟨h1, h2, h3, h4⟩ := hroom hlt
      exact ⟨h1, fun hz => h2 hz l hf.last, h3, h4⟩
  | closed xs l hseg hlast hflag _ =>
    obtain ⟨x, hx, hxf⟩ := hflag
    rw [clear_not_closed hclear hseg hw x hx] at hxf
    exact absurd hxf (by simp)

theorem LinksSpec.cons {st t : Rctx} {g g' : Bytes} {fin : Bool} {ll : ℕ} {rest : List ℕ}
    {r : Rctx × Ret} (hs : Same st t rest) (hg : g' = g ++ data st ll)
    (hu : Used st (ll :: rest) → Used t rest) (h : LinksSpec t g' (lastBuf st ll) rest r) :
    LinksSpec st g fin (ll :: rest) r := by
  have hbytes : g' ++ rest.flatMap (data t) = g ++ (ll :: rest).flatMap (data st) := by
    rw [hg, same_data hs, List.flatMap_cons, List.append_assoc]
  have hlast : lastFlag t rest (lastBuf st ll) = lastFlag st (ll :: rest) fin := by
    rw [same_lastFlag hs, lastFlag_cons]
  refine ⟨fun hok => ?_, fun hdone => ?_, h.returns⟩
  · rw [← hbytes, ← hlast]
    exact ⟨fun hused => (h.ok hok).1 (hu hused), (h.ok hok).2⟩
  · rw [← hbytes, ← hlast]
    exact h.done hdone

theorem links_spec (ids : List ℕ) : ∀ {st : Rctx} {g : Bytes} {chain : List ℕ} {cl : Option ℕ}
    {fin : Bool}, Held st g chain → Waiting st chain ids → Every InMemory st → Current st cl →
      (Carries st → fin = true) → ChainLegal conf alloc ids st cl →
      LinksSpec st g fin ids (bufferLinks conf alloc ids st cl) := by
  induction ids with
  | nil =>
    intro st g chain cl fin h hw _ _ hc _
    refine ⟨fun _ => ⟨fun hu => hu.resolve_right (by simp), chain, ?_, hw, hc⟩,
      by simp [bufferLinks], by simp [bufferLinks]⟩
    rw [List.flatMap_nil, List.append_nil]
    exact h
  | cons ll rest ih =>
    intro st g chain cl fin h hw hm hcl hc hl
    simp only [ChainLegal] at hl
    simp only [bufferLinks]
    by_cases hd : data st ll = []
    · simp only [if_pos hd] at hl ⊢
      obtain ⟨⟨hcar, hflag⟩, hrest⟩ := hl
      by_cases hf : flagged st ll = true
      · obtain ⟨rfl, hanch⟩ := hflag hf
        cases he : linkEmpty st ll with
        | none =>
          simp only [linkEmpty, hf, if_true] at he
          split at he
          · exact absurd he (by simp)
          · exact absurd he (by simp)
          · rename_i hr hlast
            rcases hanch with ha | ha
            · exact absurd (ha.symm.trans hr) (by simp)
            · exact absurd hlast ha
        | some st' =>
          obtain ⟨chain', hh, hw', hc', hr'⟩ := linkEmpty_held h hw hd hf hcar he
          refine ⟨fun _ => ⟨fun _ => hr', chain', ?_, hw', hc'⟩, by simp [bufferLinks],
            by simp [bufferLinks]⟩
          rw [List.flatMap_singleton, hd, List.append_nil]
          exact hh
      · have he : linkEmpty st ll = some st := by simp [linkEmpty, hf]
        rw [he]
        have hused : Used st (ll :: rest) → Used st rest := by
          rintro (hu | ⟨a, ha, hfa⟩)
          · exact .inl hu
          · rcases List.mem_cons.mp ha with rfl | ha
            · exact absurd hfa hf
            · exact .inr ⟨a, ha, hfa⟩
        refine .cons (fun _ _ => rfl) (by rw [hd, List.append_nil]) hused ?_
        exact ih h (waiting_tail hw) hm hcl (fun hca => absurd hca hcar) (hrest st he)
    · simp only [if_neg hd] at hl ⊢
      have hw1 := bytes_spec h hw hm hcl hd hl.1
      have hm1 : Every InMemory (bufferWhile conf alloc ll rest ((data st ll).length + 2) st cl).1 :=
        every_while inMemory_closed ((data st ll).length + 2) hm
      generalize bufferWhile conf alloc ll rest ((data st ll).length + 2) st cl = r at hl hw1 hm1 ⊢
      by_cases hok : r.2.2 = .ok
      · rw [if_pos hok]
        obtain ⟨xs, l, hf, hrl, hlb, hwr, hs⟩ := hw1.ok hok
        have hcar : Carries r.1 → lastBuf st ll = true := by
          rintro ⟨l', hl' | ⟨hl', -⟩, hlbl⟩
          · rw [hf.last] at hl'
            rw [← hlb, Option.some.inj hl']
            exact hlbl
          · rw [hf.last] at hl'
            exact absurd hl' (by simp)
        refine .cons hs rfl (fun _ => .inl (filled_respBufs hf)) ?_
        exact ih (.filled xs l _ hf) hwr hm1 (.inr (hrl.trans hf.last.symm)) hcar (hl.2 hok)
      · rw [if_neg hok]
        refine ⟨fun h => absurd h hok, fun hdone => ?_, hw1.returns⟩
        have hlast : lastFlag st (ll :: rest) false = lastFlag st (ll :: rest) fin := by
          rw [lastFlag_cons, lastFlag_cons]
        rw [← hlast]
        exact hw1.done hdone

end

/-! ### The input chain -/

theorem load_spec (bufs : List Buf) : ∀ st : Rctx,
    (load st bufs).fresh = st.fresh + bufs.length ∧ (load st bufs).respBufs = st.respBufs ∧
      (load st bufs).respBufLast = st.respBufLast ∧
      (load st bufs).respBufsCount = st.respBufsCount ∧
      (∀ x < st.fresh, (load st bufs).link x = st.link x) ∧
      Seg (next (load st bufs)) (inputLinks st bufs).head? (inputLinks st bufs) none ∧
      (inputLinks st bufs).map (fun a => ((load st bufs).link a).toBuf) = bufs := by
  induction bufs with
  | nil => intro st; exact ⟨rfl, rfl, rfl, rfl, fun _ _ => rfl, rfl, rfl⟩
  | cons b bs ih =>
    intro st
    simp only [load]
    generalize hst : ({ st with
      link := Function.update st.link st.fresh ⟨b, if bs.isEmpty then none else some (st.fresh + 1)⟩
      fresh := st.fresh + 1 } : Rctx) = st1
    obtain ⟨h1, h2, h3, h4, h5, h6, h7⟩ := ih st1
    have hfresh : st1.fresh = st.fresh + 1 := by rw [← hst]
    have hids : inputLinks st (b :: bs) = st.fresh :: inputLinks st1 bs := by
      rw [inputLinks, inputLinks, hfresh, List.length_cons, List.range'_succ]
    have hself : (load st1 bs).link st.fresh =
        ⟨b, if bs.isEmpty then none else some (st.fresh + 1)⟩ := by
      rw [h5 _ (by omega), ← hst]
      exact Function.update_self ..
    have hhead : (inputLinks st1 bs).head? = if bs.isEmpty then none else some (st.fresh + 1) := by
      cases bs with
      | nil => rfl
      | cons c cs =>
        rw [inputLinks, hfresh]
        rfl
    refine ⟨?_, h2.trans (by rw [← hst]), h3.trans (by rw [← hst]), h4.trans (by rw [← hst]), ?_,
      ?_, ?_⟩
    · rw [h1, hfresh, List.length_cons]
      omega
    · intro x hx
      rw [h5 x (by omega), ← hst]
      exact Function.update_of_ne hx.ne ..
    · rw [hids]
      refine ⟨rfl, ?_⟩
      rw [next, hself, ← hhead]
      exact h6
    · rw [hids, List.map_cons, hself, h7]

theorem held_congr {st st' : Rctx} {g : Bytes} {chain : List ℕ} (h : Held st g chain)
    (hr : st'.respBufs = st.respBufs) (hl : st'.respBufLast = st.respBufLast)
    (hc : st'.respBufsCount = st.respBufsCount) (hs : Same st st' chain) : Held st' g chain := by
  cases h with
  | empty h1 h2 h3 => exact .empty (hr.trans h1) (hl.trans h2) (hc.trans h3)
  | lone e h1 h2 h3 h4 h5 =>
    have he : st'.link e = st.link e := hs e (by simp)
    exact .lone e (hr.trans h1) (hl.trans h2) (hc.trans h3) (by rw [data, he]; exact h4)
      (by rw [next, he]; exact h5)
  | filled xs l g h => exact .filled xs l g (filled_congr h hr hl hs)
  | closed xs l h1 h2 h3 h4 =>
    have hf : ∀ x ∈ xs ++ [l], flagged st' x = flagged st x := fun x hx => by
      rw [flagged, hs x hx, flagged]
    have hg : (upto (flagged st') (xs ++ [l])).flatMap (data st') =
        (upto (flagged st) (xs ++ [l])).flatMap (data st) := by
      rw [upto_congr hf]
      exact List.flatMap_congr fun x hx => by rw [data, hs x (upto_subset _ _ x hx), data]
    rw [← hg]
    obtain ⟨x, hx, hxf⟩ := h3
    refine .closed xs l (hr ▸ same_seg hs h1) (hl.trans h2) ⟨x, hx, ?_⟩ fun y hy => ?_
    · rw [hf x (List.mem_append_left _ hx)]
      exact hxf
    · rw [lastBuf, hs y (List.mem_append_left _ hy)]
      exact h4 y hy

/-! ### Calls -/

/-- The buffers hold `g` between two calls; `fin` tells whether the last buffer
that was given carried `last_buf`. -/
def Resting (st : Rctx) (g : Bytes) (fin : Bool) : Prop :=
  ∃ chain, Held st g chain ∧ Waiting st chain [] ∧ (Carries st → fin = true)

def inputBytes (bufs : List Buf) : Bytes := bufs.flatMap Buf.data

def inputLast (bufs : List Buf) (fin : Bool) : Bool := (bufs.getLast?.map Buf.lastBuf).getD fin

def CallLegal (conf : Conf) (st : Rctx) (bufs : List Buf) (alloc : ℕ → Option ℕ) : Prop :=
  (∀ b ∈ bufs, InMemory b) ∧
    ChainLegal conf alloc (inputLinks st bufs) (load st bufs) st.respBufLast

theorem resting_shown {st : Rctx} {g : Bytes} {fin : Bool} (h : Resting st g fin) :
    Shown st g fin := by
  obtain ⟨chain, hh, hw, hc⟩ := h
  exact held_shown hh hw hc

theorem carries_congr {st st' : Rctx} {g : Bytes} {chain : List ℕ} (h : Held st g chain)
    (hr : st'.respBufs = st.respBufs) (hl : st'.respBufLast = st.respBufLast)
    (hs : Same st st' chain) (hc : Carries st') : Carries st := by
  obtain ⟨l, hl', hlb⟩ := hc
  rw [hl, hr] at hl'
  have hmem : l ∈ chain := by
    cases h with
    | empty h1 h2 _ =>
      rw [h1, h2] at hl'
      simp at hl'
    | lone e h1 h2 =>
      rw [h1, h2] at hl'
      simpa [eq_comm] using hl'
    | filled xs m g h =>
      rw [h.last] at hl'
      simp only [Option.some.injEq, reduceCtorEq, false_and, or_false] at hl'
      simp [hl']
    | closed xs m _ h2 =>
      rw [h2] at hl'
      simp only [Option.some.injEq, reduceCtorEq, false_and, or_false] at hl'
      simp [hl']
  refine ⟨l, hl', ?_⟩
  rw [lastBuf, hs l hmem] at hlb
  exact hlb

theorem bodyFilterBuffer_spec {conf : Conf} {st : Rctx} {g : Bytes} {fin : Bool} {bufs : List Buf}
    {alloc : ℕ → Option ℕ} (h : Resting st g fin) (hm : Every InMemory st)
    (hl : CallLegal conf st bufs alloc) :
    ((bodyFilterBuffer conf st bufs alloc).2 = .ok →
      (st.respBufs ≠ none ∨ (∃ b ∈ bufs, b.flagged = true) →
        (bodyFilterBuffer conf st bufs alloc).1.respBufs ≠ none) ∧
      Resting (bodyFilterBuffer conf st bufs alloc).1 (g ++ inputBytes bufs) (inputLast bufs fin)) ∧
    ((bodyFilterBuffer conf st bufs alloc).2 = .done →
      (bodyFilterBuffer conf st bufs alloc).1.respBufs ≠ none ∧
      Shown (bodyFilterBuffer conf st bufs alloc).1 (g ++ inputBytes bufs) (inputLast bufs fin)) ∧
    (bodyFilterBuffer conf st bufs alloc).2 ≠ .fault := by
  obtain ⟨chain, hh, hw, hc⟩ := h
  obtain ⟨h1, h2, h3, h4, h5, h6, h7⟩ := load_spec bufs st
  have hbound : ∀ x ∈ chain, x < st.fresh := by simpa using hw.bound
  have hs : Same st (load st bufs) chain := fun a ha => h5 a (hbound a ha)
  have hids : ∀ a ∈ inputLinks st bufs, st.fresh ≤ a ∧ a < st.fresh + bufs.length := by
    intro a ha
    simpa [inputLinks, List.mem_range'_1] using ha
  have hwait : Waiting (load st bufs) chain (inputLinks st bufs) := by
    refine ⟨h6, ?_, fun a ha => ?_⟩
    · apply List.Nodup.append (by simpa using hw.nodup) List.nodup_range'
      intro a ha hb
      have := hbound a ha
      have := hids a hb
      omega
    · rw [h1]
      rcases List.mem_append.mp ha with ha | ha
      · have := hbound a ha
        omega
      · exact (hids a ha).2
  have hbytes : (inputLinks st bufs).flatMap (data (load st bufs)) = inputBytes bufs := by
    conv_rhs => rw [← h7]
    rw [inputBytes, List.flatMap_map]
    rfl
  have hlast : lastFlag (load st bufs) (inputLinks st bufs) fin = inputLast bufs fin := by
    conv_rhs => rw [← h7]
    rw [inputLast, List.getLast?_map, Option.map_map]
    rfl
  have hspec : LinksSpec (load st bufs) g fin (inputLinks st bufs)
      (bodyFilterBuffer conf st bufs alloc) :=
    links_spec (inputLinks st bufs) (held_congr hh h2 h3 h4 hs) hwait (every_load bufs hm hl.1)
      (.inr h3.symm) (fun hca => hc (carries_congr hh h2 h3 hs hca)) hl.2
  refine ⟨fun hok => ⟨fun hu => (hspec.ok hok).1 ?_, ?_⟩, fun hdone => ?_, hspec.returns⟩
  · rcases hu with hu | ⟨b, hb, hf⟩
    · exact .inl (by rw [h2]; exact hu)
    · rw [← h7, List.mem_map] at hb
      obtain ⟨a, ha, rfl⟩ := hb
      exact .inr ⟨a, ha, hf⟩
  · rw [← hbytes, ← hlast]
    exact (hspec.ok hok).2
  · rw [← hbytes, ← hlast]
    exact hspec.done hdone

/-! ### Runs -/

structure Session where
  rctx : Rctx
  given : Bytes
  final : Bool
  rc : Ret

structure BufferCall where
  bufs : List Buf
  alloc : ℕ → Option ℕ

def newSession : Session := ⟨newRctx, [], false, .ok⟩

def bufferStep (conf : Conf) (s : Session) (c : BufferCall) : Session × Ret :=
  let r := bodyFilterBuffer conf s.rctx c.bufs c.alloc
  (⟨r.1, s.given ++ inputBytes c.bufs, inputLast c.bufs s.final, r.2⟩, r.2)

def Legal (conf : Conf) (s : Session) (c : BufferCall) : Prop :=
  s.rc = .ok ∧ CallLegal conf s.rctx c.bufs c.alloc

def Inv (s : Session) : Prop :=
  Every InMemory s.rctx ∧ (s.rc = .ok → Resting s.rctx s.given s.final) ∧ (s.rc = .done → Shown s.rctx s.given s.final) ∧
    s.rc ≠ .fault

theorem bufferStep_inv {conf : Conf} {s : Session} {c : BufferCall} (h : Inv s)
    (hl : Legal conf s c) : Inv (bufferStep conf s c).1 := by
  obtain ⟨hmem, hrest, -⟩ := h
  obtain ⟨hok, hdone, hret⟩ := bodyFilterBuffer_spec (hrest hl.1) hmem hl.2
  exact ⟨every_buffer inMemory_closed hmem hl.2.1, fun h => (hok h).2, fun h => (hdone h).2, hret⟩

theorem newSession_inv : Inv newSession := by
  refine ⟨fun _ => .inl rfl, fun _ => ⟨[], .empty rfl rfl rfl, ⟨rfl, by simp, by simp⟩, ?_⟩,
    by simp [newSession], by simp [newSession]⟩
  rintro ⟨l, hl | ⟨-, hl⟩, -⟩
  · exact absurd hl (by simp [newSession, newRctx])
  · exact absurd hl (by simp [newSession, newRctx])

theorem exec_given (conf : Conf) (calls : List BufferCall) : ∀ s : Session,
    (exec (bufferStep conf) s calls).1.given =
        s.given ++ calls.flatMap (fun c => inputBytes c.bufs) ∧
      (exec (bufferStep conf) s calls).1.final =
        calls.foldl (fun fin c => inputLast c.bufs fin) s.final := by
  induction calls with
  | nil => intro s; exact ⟨(List.append_nil _).symm, rfl⟩
  | cons c calls ih =>
    intro s
    obtain ⟨h1, h2⟩ := ih (bufferStep conf s c).1
    refine ⟨?_, h2⟩
    rw [exec_cons, h1, List.flatMap_cons, ← List.append_assoc]
    rfl

/-- In runs on buffers in memory in which no bytes get behind a flagged link, the
buffers show all bytes given so far, in memory, and `last_buf` is on the last
link only, if on the last buffer that was given. -/
theorem visible_bytes (conf : Conf) (calls : List BufferCall)
    (h : Meets (bufferStep conf) (Legal conf) newSession calls) :
    let s := (exec (bufferStep conf) newSession calls).1
    s.rc ≠ .error → s.rc ≠ .fault ∧
      Shown s.rctx (calls.flatMap fun c => inputBytes c.bufs)
        (calls.foldl (fun fin c => inputLast c.bufs fin) false) ∧
      chainMemory s.rctx s.rctx.respBufs = calls.flatMap fun c => inputBytes c.bufs := by
  intro s hrc
  have hinv : Inv s := exec_invariant (bufferStep conf) (Legal conf) Inv
    (fun _ _ hi hc => bufferStep_inv hi hc) calls newSession newSession_inv h
  obtain ⟨hg, hf⟩ := exec_given conf calls newSession
  obtain ⟨hmem, hok, hdone, hfault⟩ := hinv
  have hshown : Shown s.rctx s.given s.final := by
    cases hs : s.rc with
    | ok => exact resting_shown (hok hs)
    | done => exact hdone hs
    | error => exact absurd hs hrc
    | fault => exact absurd hs hfault
  rw [hg, hf] at hshown
  exact ⟨hfault, hshown, (chainMemory_eq hmem _).trans hshown.bytes⟩

def plainBuf (data : Bytes) : Buf := ⟨true, data, 0, false, false, false⟩

def finalBuf (data : Bytes) : Buf := ⟨true, data, 0, false, true, false⟩

def fresh (bufs : List Buf) : BufferCall := ⟨bufs, fun _ => some 0⟩

theorem visible_bytes_two_calls :
    let s := (exec (bufferStep ⟨1, 4, by decide, by decide⟩) newSession
      [fresh [plainBuf [97, 98]], fresh [finalBuf [99]]]).1
    s.rc ≠ .error ∧ s.rc ≠ .fault ∧ Shown s.rctx [97, 98, 99] true ∧
      chainMemory s.rctx s.rctx.respBufs = [97, 98, 99] := by
  refine ⟨by decide, visible_bytes ⟨1, 4, by decide, by decide⟩
    [fresh [plainBuf [97, 98]], fresh [finalBuf [99]]] ⟨⟨rfl, ?_⟩, ⟨rfl, ?_⟩, trivial⟩ (by decide)⟩
  · simp only [CallLegal, inputLinks, fresh, List.length_singleton, List.range'_one, ChainLegal]
    refine ⟨fun b hb => .inl (by rw [List.mem_singleton.mp hb]; rfl), ?_⟩
    rw [if_neg (by decide)]
    refine ⟨⟨.inl rfl, by decide, fun _ => ⟨by decide, fun _ l hl => ?_, by decide, ?_⟩⟩,
      fun _ => trivial⟩
    · exact absurd hl (by simp [load, newSession, newRctx])
    · exact fun hlt => absurd hlt (by decide)
  · simp only [CallLegal, inputLinks, fresh, List.length_singleton, List.range'_one, ChainLegal]
    refine ⟨fun b hb => .inl (by rw [List.mem_singleton.mp hb]; rfl), ?_⟩
    rw [if_neg (by decide)]
    exact ⟨⟨.inr (by decide), by decide, fun hlt => absurd hlt (by decide)⟩, fun _ => trivial⟩

/-- "abcd" with `last_buf` in buffers of two bytes: the first one carries the flag
and hides the second. -/
theorem split_hides_rest :
    ¬ let s := (exec (bufferStep ⟨2, 2, by decide, by decide⟩) newSession
        [fresh [finalBuf [97, 98, 99, 100]]]).1
      s.rc ≠ .error → s.rc ≠ .fault ∧ Shown s.rctx [97, 98, 99, 100] true ∧
        chainMemory s.rctx s.rctx.respBufs = [97, 98, 99, 100] := by
  intro h
  exact absurd (h (by decide)).2.1.bytes (by decide)

end NgxWasm.Http.BodyVisible
