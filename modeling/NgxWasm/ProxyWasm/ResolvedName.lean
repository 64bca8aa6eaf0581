import NgxWasm.Access.Decision
import NgxWasm.ProxyWasm.ForeignResolve
import NgxWasm.Lib.Run

/-!
# The name in the callback of a lookup

What the handler writes is the address and then the bytes that the memory of the guest
holds at the name's place when the answer comes.
-/

namespace NgxWasm.ProxyWasm.ResolvedName

open NgxWasm NgxWasm.Lib.LongestMatch NgxWasm.Lib.Run NgxWasm.Wavm NgxWasm.ProxyWasm.ForeignResolve
open NgxWasm.Access.Check (Tag Sockaddr Cidr Names Acl addAddr)

/-- One length byte, the address, the name. -/
def encode : Option Address → Bytes → Bytes
  | none, name => 0 :: name
  | some (.inet addr), name => 4 :: (inAddrBytes addr ++ name)
  | some (.inet6 addr), name => 16 :: (in6AddrBytes addr ++ name)

theorem encode_inj {addr : Option Address} {m n : Bytes} :
    encode addr m = encode addr n ↔ m = n := by
  cases addr with
  | none => simp [encode]
  | some a => cases a <;> simp [encode]

/-! ### The buffer -/

theorem cpymem_append (out rest bytes : Bytes) :
    (⟨out ++ rest, out.length⟩ : Cursor).cpymem bytes =
      ⟨(out ++ bytes) ++ rest.drop bytes.length, (out ++ bytes).length⟩ := by
  have htake : (out ++ rest).take out.length = out := List.take_left' rfl
  have hdrop : (out ++ rest).drop (out.length + bytes.length) = rest.drop bytes.length := by
    rw [← List.drop_drop, List.drop_left' rfl]
  simp only [Cursor.cpymem, htake, hdrop, List.append_assoc, List.length_append]

theorem writeAddress_eq (name : Bytes) (addr : Option Address) :
    writeAddress (zeroed name) addr =
      ⟨encode addr [] ++ List.replicate (name.length + 17 - (encode addr []).length) 0,
        (encode addr []).length⟩ := by
  have hzero : zeroed name = ⟨[] ++ List.replicate (name.length + 17) 0, ([] : Bytes).length⟩ := rfl
  cases addr with
  | none =>
    simp only [writeAddress, zeroed, encode]
    rfl
  | some a =>
    cases a with
    | inet addr =>
      rw [writeAddress, hzero, cpymem_append, cpymem_append]
      simp only [List.drop_replicate, encode, List.nil_append, List.append_nil,
        List.length_cons, List.length_nil, Nat.sub_sub, List.cons_append]
      rw [Nat.add_comm 1]
    | inet6 addr =>
      rw [writeAddress, hzero, cpymem_append, cpymem_append]
      simp only [List.drop_replicate, encode, List.nil_append, List.append_nil,
        List.length_cons, List.length_nil, Nat.sub_sub, List.cons_append]
      rw [Nat.add_comm 1]

theorem encode_append (addr : Option Address) (name : Bytes) :
    encode addr [] ++ name = encode addr name := by
  cases addr with
  | none => rfl
  | some a => cases a <;> simp [encode]

theorem handlerArgs_eq (name : Bytes) (addr : Option Address) :
    handlerArgs name addr = encode addr name := by
  rw [handlerArgs, writeAddress_eq, cpymem_append, encode_append]
  exact List.take_left' rfl

/-! ### What is handed out -/

section
variable {T4 : Table 32 Tag} {T6 : Table 128 Tag}
variable {cidrMatch : Sockaddr → List Cidr → Bool} {names : Names}

/-- The ACL of the filter takes the address. -/
def Accepted (acl : Option (Acl T4 T6)) (addr : Address) (push : Bool) : Prop :=
  ∀ a, acl = some a → (addAddr a addr.sockaddr push).2 = .ok

/-- The address of an answer, none where the ACL refuses it. -/
structure HandedOut (acl : Option (Acl T4 T6)) (answer : Answer) (push : Bool)
    (out : Option Address) : Prop where
  picked : ∀ addr, out = some addr → answer.pick = some addr
  accepted : ∀ addr, out = some addr → Accepted acl addr push
  none_only : out = none → ∀ addr, answer.pick = some addr → ¬ Accepted acl addr push

theorem admit_handedOut (acl : Option (Acl T4 T6)) (answer : Answer) (push : Bool) :
    HandedOut acl answer push (admitAnswer acl answer push).2 := by
  cases hpick : answer.pick with
  | none =>
    have hout : (admitAnswer acl answer push).2 = none := by rw [admitAnswer, hpick]
    rw [hout]
    refine ⟨?_, ?_, ?_⟩
    · intro _ h
      cases h
    · intro _ h
      cases h
    · intro _ a h
      rw [hpick] at h
      cases h
  | some addr =>
    cases acl with
    | none =>
      have hout : (admitAnswer (none : Option (Acl T4 T6)) answer push).2 = some addr := by
        rw [admitAnswer, hpick]
      rw [hout]
      refine ⟨?_, ?_, ?_⟩
      · intro _ h
        rw [hpick, h]
      · intro _ _ _ h
        cases h
      · intro h
        cases h
    | some acl =>
      by_cases hok : (addAddr acl addr.sockaddr push).2 = .ok
      · have hout : (admitAnswer (some acl) answer push).2 = some addr := by simp [admitAnswer, hpick, hok]
        rw [hout]
        refine ⟨?_, ?_, ?_⟩
        · intro _ h
          rw [hpick, h]
        · intro a ha b hb
          cases ha
          cases hb
          exact hok
        · intro h
          cases h
      · have hout : (admitAnswer (some acl) answer push).2 = none := by simp [admitAnswer, hpick, hok]
        rw [hout]
        refine ⟨?_, ?_, ?_⟩
        · intro _ h
          cases h
        · intro _ h
          cases h
        · intro _ a ha hacc
          rw [hpick] at ha
          cases ha
          exact hok (hacc acl rfl)

theorem HandedOut.unique {acl : Option (Acl T4 T6)} {answer : Answer} {push : Bool}
    {x y : Option Address} (hx : HandedOut acl answer push x) (hy : HandedOut acl answer push y) :
    x = y := by
  cases x with
  | none =>
    cases y with
    | none => rfl
    | some b => exact absurd (hy.accepted b rfl) (hx.none_only rfl b (hy.picked b rfl))
  | some a =>
    cases y with
    | none => exact absurd (hx.accepted a rfl) (hy.none_only rfl a (hx.picked a rfl))
    | some b =>
      have ha := hx.picked a rfl
      rw [hy.picked b rfl] at ha
      exact ha.symm

/-! ### From the call to the answer -/

def Input.Answers (id : ℕ) : Input → Prop
  | .answer k _ _ _ => k = id
  | _ => False

theorem returnAddress_calls (s : State T4 T6) (args : Bytes) (guest : GuestData.Allocator)
    (retData retSize : HostPtr) :
    (returnAddress s args guest retData retSize).1.calls = s.calls := by
  simp only [returnAddress]
  split
  · rfl
  · split <;> rfl

theorem foreignCallResolve_calls (s : State T4 T6) (step : Step) (fargs : Slice)
    (retData retSize : HostPtr) (start : Start) :
    (foreignCallResolve cidrMatch names s step fargs retData retSize start).1.calls = s.calls ∨
      (foreignCallResolve cidrMatch names s step fargs retData retSize start).1.calls =
        s.calls ++ [some fargs] := by
  simp only [foreignCallResolve]
  split
  · exact .inl rfl
  · split
    · exact .inl rfl
    · split
      · exact .inl rfl
      · cases start with
        | failed => exact .inl rfl
        | async => exact .inr rfl
        | sync answer push buf guest =>
          left
          cases buf with
          | false => rfl
          | true => exact returnAddress_calls _ _ _ _ _

/-- A lookup waits until its own answer comes. -/
theorem step_waits (s : State T4 T6) (i : Input) {id : ℕ} {name : Slice}
    (hwait : s.calls[id]? = some (some name)) (hother : ¬ Input.Answers id i) :
    (step cidrMatch names s i).1.calls[id]? = some (some name) := by
  cases i with
  | write p bytes => exact hwait
  | resolve st name' len retData retSize start =>
    simp only [step, callForeignFunction]
    split
    · rename_i fargs rd rs _ _ _
      rcases @foreignCallResolve_calls _ _ cidrMatch names s st fargs rd rs start with h | h
      · rw [h]
        exact hwait
      · rw [h, List.getElem?_append_left (List.getElem?_eq_some_iff.mp hwait).1]
        exact hwait
    · exact hwait
  | answer k answer push buf =>
    have hne : k ≠ id := hother
    simp only [step, onAnswer]
    split
    · cases buf <;>
        simp only [resolveHandler, if_true, Bool.false_eq_true, if_false] <;>
        rw [List.getElem?_set_ne hne] <;>
        exact hwait
    · exact hwait

theorem run_waits (inputs : List Input) {id : ℕ} {name : Slice} :
    ∀ s : State T4 T6, s.calls[id]? = some (some name) →
      (∀ i ∈ inputs, ¬ Input.Answers id i) →
      (exec (step cidrMatch names) s inputs).1.calls[id]? = some (some name) := by
  induction inputs with
  | nil => intro s hwait _; exact hwait
  | cons i inputs ih =>
    intro s hwait hother
    rw [exec_cons]
    apply ih
    · exact step_waits s i hwait (hother i (List.mem_cons_self ..))
    · intro j hj
      exact hother j (List.mem_cons_of_mem _ hj)

/-- A call that is accepted and not answered at once. -/
theorem asked {s : State T4 T6} {st : Step} {name len retData retSize : BitVec 32} {fargs : Slice}
    (hname : hostLiftSlice s.memory name (.arg len) = some fargs)
    (hok : (step cidrMatch names s (.resolve st name len retData retSize .async)).2 = .ok) :
    (step cidrMatch names s (.resolve st name len retData retSize .async)).1 =
      { s with calls := s.calls ++ [some fargs] } := by
  simp only [step, callForeignFunction, hname] at hok ⊢
  cases hdata : hostLift s.memory retData with
  | none => simp [hdata] at hok
  | some rd =>
    cases hsize : hostLift s.memory retSize with
    | none => simp [hdata, hsize] at hok
    | some rs =>
      simp only [hdata, hsize, foreignCallResolve] at hok ⊢
      split at hok
      · cases hok
      · split at hok
        · cases hok
        · split at hok
          · cases hok
          · rename_i hstep hlen hacl
            rw [if_neg hstep, if_neg hlen, if_neg hacl]

theorem answered {s : State T4 T6} {id : ℕ} {name : Slice} (answer : Answer) (push : Bool)
    (hwait : s.calls[id]? = some (some name)) :
    (step cidrMatch names s (.answer id answer push true)).2 =
      .callback (encode (admitAnswer s.acl answer push).2 (readSlice s.memory name)) := by
  simp only [step, onAnswer, hwait, resolveHandler, if_true, handlerArgs_eq]

end

/-- The callback is given one length byte, the address that the ACL accepted and the name of
the call exactly when the guest's memory holds the name where it was passed. -/
theorem callback_args_iff {T4 : Table 32 Tag} {T6 : Table 128 Tag}
    (cidrMatch : Sockaddr → List Cidr → Bool) (names : Names) (s : State T4 T6) (st : Step)
    (name len retData retSize : BitVec 32) (fargs : Slice)
    (passed : hostLiftSlice s.memory name (.arg len) = some fargs)
    (ok : (step cidrMatch names s (.resolve st name len retData retSize .async)).2 = .ok)
    (inputs : List Input) (waiting : ∀ i ∈ inputs, ¬ Input.Answers s.calls.length i)
    (t : State T4 T6)
    (later : t = (exec (step cidrMatch names)
      (step cidrMatch names s (.resolve st name len retData retSize .async)).1 inputs).1)
    (answer : Answer) (push : Bool) :
    (∃ addr, HandedOut t.acl answer push addr ∧
        (step cidrMatch names t (.answer s.calls.length answer push true)).2 =
          .callback (encode addr (readSlice s.memory fargs))) ↔
      readSlice t.memory fargs = readSlice s.memory fargs := by
  have hwait : t.calls[s.calls.length]? = some (some fargs) := by
    rw [later, asked passed ok]
    apply run_waits _ _ _ waiting
    simp
  rw [answered answer push hwait]
  have hout := admit_handedOut t.acl answer push
  constructor
  · intro h
    obtain ⟨addr, haddr, heq⟩ := h
    rw [hout.unique haddr] at heq
    exact encode_inj.mp (Outcome.callback.inj heq)
  · intro h
    exact ⟨_, hout, congrArg Outcome.callback (encode_inj.mpr h)⟩

/-! ### A lookup of one letter -/

/-- The guest holds `a` at 16. -/
def lookupStart : State (listTable 32 Tag) (listTable 128 Tag) where
  memory := ⟨0, 65536, by decide, fun _ off => if off = 16 then 97 else 0⟩
  acl := some (Access.Check.aclInit Access.Decision.bothCtx)
  calls := []

def allHosts : Names := ⟨fun _ => none, fun _ => none, fun _ => some .allow⟩

def lookupCall : Input := .resolve .reqHeaders 16 1 32 36 .async

def lookupAnswer : Answer := ⟨false, [.inet ⟨192, 0, 2, 1⟩], 0⟩

/-- The state once the guest has made these writes. -/
def lookupWaits (writes : List Input) : State (listTable 32 Tag) (listTable 128 Tag) :=
  (exec (step Access.Decision.cidrMatchList allHosts)
    (step Access.Decision.cidrMatchList allHosts lookupStart lookupCall).1 writes).1

theorem other_write_delivered :
    ∃ addr, HandedOut (lookupWaits [.write 17 [98]]).acl lookupAnswer true addr ∧
      (step Access.Decision.cidrMatchList allHosts (lookupWaits [.write 17 [98]])
          (.answer 0 lookupAnswer true true)).2 =
        .callback (encode addr (readSlice lookupStart.memory ⟨some ⟨0, 16⟩, 1⟩)) := by
  have hother : ∀ i ∈ [Input.write 17 [98]], ¬ Input.Answers lookupStart.calls.length i := by
    intro i hi
    rw [List.mem_singleton.mp hi]
    exact id
  have h := callback_args_iff Access.Decision.cidrMatchList allHosts lookupStart .reqHeaders 16 1 32
    36 ⟨some ⟨0, 16⟩, 1⟩ (by decide) (by decide) [.write 17 [98]] hother
    (lookupWaits [.write 17 [98]]) rfl lookupAnswer true
  exact h.mpr (by decide)

/-- The guest writes `b` over its `a`: the callback is about `b`. -/
theorem overwritten_name_delivered :
    (step Access.Decision.cidrMatchList allHosts lookupStart lookupCall).2 = .ok ∧
      readSlice lookupStart.memory ⟨some ⟨0, 16⟩, 1⟩ = [97] ∧
      (step Access.Decision.cidrMatchList allHosts (lookupWaits [.write 16 [98]])
          (.answer 0 lookupAnswer true true)).2 = .callback [4, 192, 0, 2, 1, 98] := by
  decide

end NgxWasm.ProxyWasm.ResolvedName
