import NgxWasm.Lib.Trace
import NgxWasm.Wavm.Calls

/-!
# Traps over nested calls

What is left of an instance after its first trap, and which message and which buffer the trap of a
host function is made from, for every nesting of calls.
-/

namespace NgxWasm.Wavm

open NgxWasm NgxWasm.Lib
open NgxWasm.Http.Headers (ascii)
open NgxWasm.Lib.Ledger (Proper held)

/-! ### The first trap -/

/-- A call is answered with the error of an earlier one, which was deleted then. -/
def Stale (s : CallState) : CallEv → Prop
  | .call argsFit _ => argsFit = true ∧ s.trapped = true ∧ s.err ≠ noErr
  | _ => False

/-- The runtime answers as it is documented to. -/
def RuntimeOk : CallEv → Prop
  | .leave o => o.Documented
  | _ => True

theorem callStep_trapped {s : CallState} (h : s.trapped = true) (e : CallEv) :
    (callStep s e).1.trapped = true ∧ (callStep s e).2.entered = false := by
  cases e with
  | call argsFit exported =>
    simp only [callStep, funcCall, h, if_true]
    split
    · exact ⟨h, rfl⟩
    · exact ⟨h, rfl⟩
  | leave o =>
    simp only [callStep, funcLeave]
    split
    · exact ⟨h, rfl⟩
    · exact ⟨rfl, rfl⟩
  | trampoline name => exact ⟨h, rfl⟩
  | printf text =>
    simp only [callStep, trapPrintf]
    split
    · exact ⟨h, trivial⟩
    · exact ⟨h, trivial⟩
  | hostReturn name rc =>
    simp only [callStep, trampolineLeave, trapPrintf]
    split
    · split
      · exact ⟨h, trivial⟩
      · exact ⟨h, trivial⟩
    · exact ⟨h, trivial⟩

/-- What aborts a call leaves the instance trapped. -/
theorem callStep_abort {s : CallState} {e : CallEv} (h : (callStep s e).2.rc = some .abort) :
    (callStep s e).1.trapped = true := by
  cases e with
  | call argsFit exported =>
    simp only [callStep, funcCall] at h ⊢
    split at h
    · exact absurd h (by simp)
    split at h
    · rename_i hargs htrap
      rw [if_neg hargs, if_pos htrap]
      exact htrap
    split at h
    · exact absurd h (by simp)
    · exact absurd h (by simp)
  | leave o =>
    simp only [callStep, funcLeave] at h ⊢
    split at h
    · exact absurd h (by simp)
    · rename_i herr
      rw [if_neg herr]
  | trampoline name => exact absurd h (by simp [callStep])
  | printf text => exact absurd h (by simp [callStep])
  | hostReturn name rc => exact absurd h (by simp [callStep, trampolineLeave])

theorem exec_trapped (evs : List CallEv) {s : CallState} (h : s.trapped = true) :
    ∀ o ∈ (Run.exec callStep s evs).2, o.entered = false := by
  induction evs generalizing s with
  | nil => exact fun o ho => absurd ho (by simp)
  | cons e evs ih =>
    obtain ⟨htrap, hout⟩ := callStep_trapped h e
    intro o ho
    rw [Run.exec_cons] at ho
    rcases List.mem_cons.mp ho with rfl | ho
    · exact hout
    · exact ih htrap o ho

/-- What a call that comes to its end makes is deleted at once. -/
theorem funcLeave_acts (s : CallState) {o : Outcome} (h : o.Documented) :
    Proper [] (funcLeave s o).2.acts ∧ held [] (funcLeave s o).2.acts = [] := by
  obtain ⟨error, trap⟩ := o
  rcases h with h | ⟨h, herror⟩
  · simp only at h
    subst h
    cases error with
    | false => simp [funcLeave, leaveErr, leaveMade, noErr, Proper, held]
    | true => simp [funcLeave, leaveErr, leaveMade, noErr, logError, Proper, held]
  · simp only at h herror
    subst h herror
    simp [funcLeave, leaveErr, leaveMade, noErr, logError, Proper, held]

/-- The first object that is deleted for an error was deleted before. -/
theorem logError_stale {err : WrtErr} (h : err ≠ noErr) : ¬Proper [] (logError err) := by
  obtain ⟨trap, res⟩ := err
  cases trap with
  | some n => simp [logError, Proper]
  | none =>
    cases res with
    | some n => simp [logError, Proper]
    | none => exact absurd rfl h

/-- A step that is not stale leaves nothing behind, a stale one deletes what is gone. -/
theorem callStep_acts (s : CallState) {e : CallEv} (hdoc : RuntimeOk e) :
    (Proper [] (callStep s e).2.acts ↔ ¬Stale s e) ∧
      (¬Stale s e → held [] (callStep s e).2.acts = []) := by
  cases e with
  | call argsFit exported =>
    simp only [callStep, funcCall, Stale]
    cases argsFit with
    | false => simp [Proper, held]
    | true =>
      cases htrap : s.trapped with
      | true =>
        by_cases herr : s.err = noErr
        · simp [herr, logError, noErr, Proper, held]
        · simp [herr, logError_stale herr]
      | false =>
        cases exported with
        | true => simp [Proper, held]
        | false => simp [Proper, held]
  | leave o =>
    obtain ⟨hproper, hheld⟩ := funcLeave_acts s hdoc
    exact ⟨iff_of_true hproper id, fun _ => hheld⟩
  | trampoline name => simp [callStep, Stale, Proper, held]
  | printf text => simp [callStep, Stale, Proper, held]
  | hostReturn name rc => simp [callStep, trampolineLeave, Stale, Proper, held]

theorem exec_acts (evs : List CallEv) (s : CallState) (hdoc : ∀ e ∈ evs, RuntimeOk e) :
    (Proper [] ((Run.exec callStep s evs).2.flatMap CallOut.acts) ↔
      Run.Meets callStep (fun s e => ¬Stale s e) s evs) ∧
    (Run.Meets callStep (fun s e => ¬Stale s e) s evs →
      held [] ((Run.exec callStep s evs).2.flatMap CallOut.acts) = []) := by
  induction evs generalizing s with
  | nil => exact ⟨by simp [Proper], fun _ => rfl⟩
  | cons e evs ih =>
    obtain ⟨hproper, hheld⟩ := callStep_acts s (hdoc e (List.mem_cons_self ..))
    obtain ⟨ihproper, ihheld⟩ :=
      ih (callStep s e).1 fun x hx => hdoc x (List.mem_cons_of_mem _ hx)
    rw [Run.exec_cons, Run.meets_cons, List.flatMap_cons, Ledger.proper_append,
      Ledger.held_append, hproper]
    constructor
    · refine and_congr_right ?_
      intro hfresh
      rw [hheld hfresh]
      exact ihproper
    · intro h
      rw [hheld h.1]
      exact ihheld h.2

/-- After a call that was aborted the runtime is not entered again, and every trap and error is
deleted exactly once unless a function is called while that of the last call is kept. -/
theorem calls_after_trap (evs : List CallEv) (hdoc : ∀ e ∈ evs, RuntimeOk e) :
    (∀ before e after, evs = before ++ e :: after →
      (callStep (Run.exec callStep freshInstance before).1 e).2.rc = some .abort →
      ∀ o ∈ (Run.exec callStep
        (callStep (Run.exec callStep freshInstance before).1 e).1 after).2, o.entered = false) ∧
    (Proper [] ((Run.exec callStep freshInstance evs).2.flatMap CallOut.acts) ↔
      Run.Meets callStep (fun s e => ¬Stale s e) freshInstance evs) ∧
    (Run.Meets callStep (fun s e => ¬Stale s e) freshInstance evs →
      held [] ((Run.exec callStep freshInstance evs).2.flatMap CallOut.acts) = []) := by
  refine ⟨?_, exec_acts evs freshInstance hdoc⟩
  intro before e after _ habort
  exact exec_trapped after (callStep_abort habort)

/-- A host function traps the guest, and the instance is called again with one argument too few. -/
def trappedCalls : List CallEv :=
  [.call true true, .trampoline (ascii "f"), .hostReturn (ascii "f") (-12),
    .leave ⟨false, .raised⟩, .call false true]

theorem calls_after_trap_refused :
    Proper [] ((Run.exec callStep freshInstance trappedCalls).2.flatMap CallOut.acts) ∧
      held [] ((Run.exec callStep freshInstance trappedCalls).2.flatMap CallOut.acts) = [] := by
  have hdoc : ∀ e ∈ trappedCalls, RuntimeOk e := by
    simp [trappedCalls, RuntimeOk, Outcome.Documented]
  have hfresh : Run.Meets callStep (fun s e => ¬Stale s e) freshInstance trappedCalls := by
    simp [trappedCalls, Run.Meets, Stale, callStep, funcCall, freshInstance, trampolineEnter]
  obtain ⟨_, hproper, hheld⟩ := calls_after_trap trappedCalls hdoc
  exact ⟨hproper.mpr hfresh, hheld hfresh⟩

/-! ### Messages of host functions -/

def isTrampoline : CallEv → Bool
  | .trampoline _ => true
  | _ => false

/-- What the trampolines hand to `ngx_wavm_instance_trap_printf`. -/
def messages : CallEv → List Bytes
  | .printf text => [text]
  | .hostReturn name rc => if rc = wavmNyi then [name] else []
  | _ => []

/-- The messages since a trampoline was last entered, at any depth. -/
def lastMessages (evs : List CallEv) : List Bytes :=
  evs.foldl (fun ms e => if isTrampoline e then [] else ms ++ messages e) []

/-- The first of the messages that is not empty, as far as the buffer holds it. -/
def firstMessage (ms : List Bytes) : Bytes := ((ms.find? (· ≠ [])).getD []).take trapMaxlen

theorem lastMessages_snoc (evs : List CallEv) (e : CallEv) :
    lastMessages (evs ++ [e]) =
      if isTrampoline e then [] else lastMessages evs ++ messages e := by
  rw [lastMessages, List.foldl_append]
  rfl

theorem firstMessage_eq_nil {ms : List Bytes} (h : firstMessage ms = []) :
    ms.find? (· ≠ []) = none := by
  rw [firstMessage] at h
  cases hf : ms.find? (· ≠ []) with
  | none => rfl
  | some m =>
    rw [hf, Option.getD_some, List.take_eq_nil_iff] at h
    rcases h with h | h
    · exact absurd h (by decide)
    · have := List.find?_some hf
      simp [h] at this

theorem firstMessage_snoc (ms : List Bytes) (m : Bytes) :
    firstMessage (ms ++ [m]) =
      if firstMessage ms = [] then m.take trapMaxlen else firstMessage ms := by
  by_cases h : firstMessage ms = []
  · have hnone := firstMessage_eq_nil h
    rw [if_pos h, firstMessage, List.find?_append, hnone, Option.none_or]
    by_cases hm : m = []
    · simp [hm]
    · simp [hm]
  · rw [if_neg h, firstMessage, List.find?_append]
    cases hf : ms.find? (· ≠ []) with
    | none =>
      rw [firstMessage, hf] at h
      exact absurd rfl h
    | some x =>
      rw [firstMessage, hf]
      rfl

/-- The number of a trampoline is the number of those before it. -/
def Numbered (evs : List CallEv) (k : ℕ) (name : Bytes) : Prop :=
  ∃ before inside, evs = before ++ .trampoline name :: inside ∧ before.countP isTrampoline = k

theorem Numbered.snoc {evs : List CallEv} {k : ℕ} {name : Bytes} (h : Numbered evs k name)
    (e : CallEv) : Numbered (evs ++ [e]) k name := by
  obtain ⟨before, inside, rfl, hk⟩ := h
  exact ⟨before, inside ++ [e], by simp, hk⟩

/-- The trampoline that was entered last has the number. -/
def LastEntered (evs : List CallEv) (n : ℕ) : Prop :=
  ∃ before name inside, evs = before ++ .trampoline name :: inside ∧
    before.countP isTrampoline = n ∧ inside.countP isTrampoline = 0

theorem lastEntered_of_countP {evs : List CallEv} {n : ℕ} (h : evs.countP isTrampoline = n + 1) :
    LastEntered evs n := by
  induction evs using List.reverseRecOn with
  | nil => simp at h
  | append_singleton evs e ih =>
    rw [List.countP_append, List.countP_singleton] at h
    by_cases he : isTrampoline e = true
    · rw [if_pos he] at h
      cases e with
      | trampoline name => exact ⟨evs, name, [], rfl, by omega, rfl⟩
      | _ => cases he
    · rw [if_neg he] at h
      obtain ⟨before, name, inside, rfl, hbefore, hinside⟩ := ih h
      refine ⟨before, name, inside ++ [e], by simp, hbefore, ?_⟩
      rw [List.countP_append, List.countP_singleton, if_neg he, hinside]

/-- The trampolines that have not come back, the innermost first. -/
def hosts (frames : List CallFrame) : List (ℕ × Bytes) :=
  frames.filterMap fun f =>
    match f with
    | .host k name => some (k, name)
    | .guest _ => none

/-- What an instance keeps of its history. -/
structure Recorded (evs : List CallEv) (s : CallState) : Prop where
  message : s.trapmsg = firstMessage (lastMessages evs)
  entered : s.trampolines = evs.countP isTrampoline
  buffer : 0 < s.trampolines → s.trapbuf + 1 = s.trampolines
  owner : s.trapmsg ≠ [] → 0 < s.trampolines ∧ s.msgFrame = s.trapbuf
  frames : ∀ p ∈ hosts s.frames, Numbered evs p.1 p.2
  nested : (hosts s.frames).Pairwise fun p q => q.1 < p.1

theorem isTrampoline_countP (evs : List CallEv) (e : CallEv) (h : isTrampoline e = false) :
    (evs ++ [e]).countP isTrampoline = evs.countP isTrampoline := by
  rw [List.countP_append, List.countP_singleton, h]
  simp

/-- An event that says nothing and enters no trampoline. -/
theorem recorded_quiet {evs : List CallEv} {s s' : CallState} (h : Recorded evs s) {e : CallEv}
    (he : isTrampoline e = false) (hm : messages e = []) (hmsg : s'.trapmsg = s.trapmsg)
    (hframe : s'.msgFrame = s.msgFrame) (hbuf : s'.trapbuf = s.trapbuf)
    (hent : s'.trampolines = s.trampolines)
    (hsub : (hosts s'.frames).Sublist (hosts s.frames)) :
    Recorded (evs ++ [e]) s' where
  message := by
    rw [lastMessages_snoc, he, hm, List.append_nil, hmsg]
    exact h.message
  entered := by
    rw [isTrampoline_countP evs e he, hent]
    exact h.entered
  buffer := by
    rw [hent, hbuf]
    exact h.buffer
  owner := by
    rw [hmsg, hent, hframe, hbuf]
    exact h.owner
  frames := fun p hp => (h.frames p (hsub.subset hp)).snoc e
  nested := h.nested.sublist hsub

/-- One more message for the current trampoline. -/
theorem recorded_message {evs : List CallEv} {s : CallState} (h : Recorded evs s)
    (hin : 0 < s.trampolines) {e : CallEv} {text : Bytes} (he : isTrampoline e = false)
    (hm : messages e = [text]) : Recorded (evs ++ [e]) (trapPrintf s text) := by
  have hfields : (trapPrintf s text).trampolines = s.trampolines ∧
      (trapPrintf s text).trapbuf = s.trapbuf ∧ (trapPrintf s text).frames = s.frames := by
    unfold trapPrintf
    split
    · exact ⟨rfl, rfl, rfl⟩
    · exact ⟨rfl, rfl, rfl⟩
  obtain ⟨hent, hbuf, hframes⟩ := hfields
  constructor
  · rw [lastMessages_snoc, he, hm, if_neg (by simp), firstMessage_snoc, ← h.message]
    unfold trapPrintf
    split
    · rfl
    · rfl
  · rw [isTrampoline_countP evs e he, hent]
    exact h.entered
  · rw [hent, hbuf]
    exact h.buffer
  · rw [hent, hbuf]
    intro hne
    refine ⟨hin, ?_⟩
    unfold trapPrintf at hne ⊢
    split at hne
    · rename_i hnil
      rw [if_pos hnil]
    · rename_i hnil
      rw [if_neg hnil]
      exact (h.owner hnil).2
  · intro p hp
    rw [hframes] at hp
    exact (h.frames p hp).snoc e
  · rw [hframes]
    exact h.nested

theorem Numbered.entered {evs : List CallEv} {k : ℕ} {name : Bytes} (h : Numbered evs k name) :
    k < evs.countP isTrampoline := by
  obtain ⟨before, inside, rfl, rfl⟩ := h
  rw [List.countP_append, List.countP_cons]
  simp [isTrampoline]

theorem hosts_tail (frames : List CallFrame) : (hosts frames.tail).Sublist (hosts frames) :=
  (List.tail_sublist frames).filterMap _

/-- The guest that called the host function goes on, or unwinds. -/
theorem hosts_resume (frames : List CallFrame) (u : Bool) :
    (hosts (match frames.tail with
      | .guest _ :: rest => .guest u :: rest
      | rest => rest)).Sublist (hosts frames) := by
  have htail := hosts_tail frames
  split
  · rename_i v rest heq
    rw [heq] at htail
    exact htail
  · exact htail

theorem callStep_recorded {evs : List CallEv} {s : CallState} (h : Recorded evs s) {e : CallEv}
    (hnest : Nests s e) : Recorded (evs ++ [e]) (callStep s e).1 := by
  cases e with
  | call argsFit exported =>
    have hsame : (callStep s (.call argsFit exported)).1.trapmsg = s.trapmsg ∧
        (callStep s (.call argsFit exported)).1.msgFrame = s.msgFrame ∧
        (callStep s (.call argsFit exported)).1.trapbuf = s.trapbuf ∧
        (callStep s (.call argsFit exported)).1.trampolines = s.trampolines ∧
        hosts (callStep s (.call argsFit exported)).1.frames = hosts s.frames := by
      simp only [callStep, funcCall]
      split
      · exact ⟨rfl, rfl, rfl, rfl, rfl⟩
      split
      · exact ⟨rfl, rfl, rfl, rfl, rfl⟩
      split
      · exact ⟨rfl, rfl, rfl, rfl, rfl⟩
      · exact ⟨rfl, rfl, rfl, rfl, rfl⟩
    obtain ⟨hmsg, hframe, hbuf, hent, hsub⟩ := hsame
    exact recorded_quiet h rfl rfl hmsg hframe hbuf hent (hsub ▸ List.Sublist.refl _)
  | leave o =>
    simp only [callStep, funcLeave]
    split
    · exact recorded_quiet h rfl rfl rfl rfl rfl rfl (hosts_tail s.frames)
    · exact recorded_quiet h rfl rfl rfl rfl rfl rfl (hosts_tail s.frames)
  | trampoline name =>
    constructor
    · rw [lastMessages_snoc]
      rfl
    · rw [List.countP_append, ← h.entered]
      rfl
    · exact fun _ => rfl
    · exact fun hne => absurd rfl hne
    · intro p hp
      rcases List.mem_cons.mp hp with rfl | hp
      · exact ⟨evs, [], rfl, h.entered.symm⟩
      · exact (h.frames p hp).snoc _
    · refine List.pairwise_cons.mpr ⟨?_, h.nested⟩
      intro p hp
      rw [h.entered]
      exact (h.frames p hp).entered
  | printf text =>
    obtain ⟨k, name, rest, hframes⟩ := hnest
    have hk := (h.frames (k, name) (by simp [hframes, hosts])).entered
    rw [← h.entered] at hk
    exact recorded_message h (Nat.zero_lt_of_lt hk) rfl rfl
  | hostReturn name rc =>
    obtain ⟨k, rest, hframes⟩ := hnest
    have hk := (h.frames (k, name) (by simp [hframes, hosts])).entered
    rw [← h.entered] at hk
    simp only [callStep, trampolineLeave]
    by_cases hrc : rc = wavmNyi
    · have hquiet : Recorded evs { s with hostcall := false } :=
        ⟨h.message, h.entered, h.buffer, h.owner, h.frames, h.nested⟩
      have hsaid := recorded_message (e := .hostReturn name rc) hquiet (Nat.zero_lt_of_lt hk) rfl
        (by rw [messages, if_pos hrc])
      rw [if_pos hrc]
      have hsub := hosts_resume (trapPrintf { s with hostcall := false } name).frames
        (hostTrap (trapPrintf { s with hostcall := false } name) rc).isSome
      exact ⟨hsaid.message, hsaid.entered, hsaid.buffer, hsaid.owner,
        fun p hp => hsaid.frames p (hsub.subset hp), hsaid.nested.sublist hsub⟩
    · rw [if_neg hrc]
      exact recorded_quiet h rfl (by rw [messages, if_neg hrc]) rfl rfl rfl rfl
        (hosts_resume s.frames (hostTrap { s with hostcall := false } rc).isSome)

theorem exec_recorded (evs : List CallEv) (h : Run.Meets callStep Nests freshInstance evs) :
    Recorded evs (Run.exec callStep freshInstance evs).1 := by
  induction evs using List.reverseRecOn with
  | nil =>
    exact ⟨rfl, rfl, fun hpos => absurd hpos (by simp [freshInstance]),
      fun hne => absurd rfl hne, fun p hp => absurd hp (by simp [freshInstance, hosts]),
      List.Pairwise.nil⟩
  | append_singleton evs e ih =>
    rw [Run.meets_append] at h
    rw [Run.exec_append]
    exact callStep_recorded (ih h.1) h.2.1

/-- The text a trap is made of. -/
def trapText (rc : ℤ) (msg : Bytes) : Option Bytes :=
  match hostErr rc with
  | none => if msg = [] then none else some msg
  | some err => some (if msg = [] then err else err ++ ascii ": " ++ msg)

theorem hostTrap_text (s : CallState) (rc : ℤ) :
    (hostTrap s rc).map HostTrap.text = trapText rc s.trapmsg := by
  unfold hostTrap trapText
  cases hostErr rc with
  | none =>
    by_cases hm : s.trapmsg = []
    · simp [hm]
    · simp [hm]
  | some err =>
    by_cases hm : s.trapmsg = []
    · simp [hm]
    · simp [hm]

theorem hostTrap_frame {s : CallState} {rc : ℤ} {t : HostTrap} (h : hostTrap s rc = some t)
    (hmsg : s.trapmsg ≠ []) : t.frame = some s.msgFrame := by
  unfold hostTrap at h
  split at h
  · rw [if_neg hmsg] at h
    rw [← Option.some.inj h]
  · rw [if_neg hmsg] at h
    rw [← Option.some.inj h]

/-- What the trap is made from is what is recorded after the function's return. -/
theorem trampolineLeave_trap (s : CallState) (name : Bytes) (rc : ℤ) :
    (trampolineLeave s name rc).2.trap = hostTrap (trampolineLeave s name rc).1 rc := by
  simp only [trampolineLeave]
  rfl

/-- In every nesting of calls a trap of a host function says the first message since the last
trampoline was entered, and reads it from the buffer of that trampoline: the function's own if it
has called no host function through the guest, else one whose frame is gone. -/
theorem hostReturn_trap (evs : List CallEv) (name : Bytes) (rc : ℤ)
    (h : Run.Meets callStep Nests freshInstance (evs ++ [.hostReturn name rc])) :
    let s := (Run.exec callStep freshInstance evs).1
    let msg := firstMessage (lastMessages (evs ++ [.hostReturn name rc]))
    ∃ before inside rest, evs = before ++ .trampoline name :: inside ∧
      s.frames = .host (before.countP isTrampoline) name :: rest ∧
      ((callStep s (.hostReturn name rc)).2.trap).map HostTrap.text = trapText rc msg ∧
      ∀ t, (callStep s (.hostReturn name rc)).2.trap = some t → msg ≠ [] →
        ∃ n, t.frame = some n ∧ LastEntered evs n ∧
          (n = before.countP isTrampoline ↔ inside.countP isTrampoline = 0) ∧
          ((∃ p ∈ hosts s.frames, p.1 = n) ↔ inside.countP isTrampoline = 0) := by
  dsimp only
  obtain ⟨hbefore, hnest, _⟩ := (Run.meets_append ..).mp h
  have hrec := exec_recorded evs hbefore
  have hafter := exec_recorded _ h
  rw [Run.exec_append] at hafter
  simp only [Run.exec_cons, Run.exec_nil] at hafter
  generalize (Run.exec callStep freshInstance evs).1 = s at hnest hrec hafter ⊢
  obtain ⟨k, rest, hframes⟩ := hnest
  have hhosts : hosts s.frames = (k, name) :: hosts rest := by
    rw [hframes]
    rfl
  obtain ⟨before, inside, hevs, hk⟩ := hrec.frames (k, name) (by simp [hhosts])
  have htrap : (callStep s (.hostReturn name rc)).2.trap =
      hostTrap (callStep s (.hostReturn name rc)).1 rc := trampolineLeave_trap s name rc
  have hcount : evs.countP isTrampoline = k + inside.countP isTrampoline + 1 := by
    rw [hevs, List.countP_append, List.countP_cons, hk]
    simp only [isTrampoline, if_true]
    omega
  have hmessage := hafter.message
  have hentered := hafter.entered
  have hbuffer := hafter.buffer
  have howner := hafter.owner
  rw [isTrampoline_countP _ _ rfl, hcount] at hentered
  generalize (callStep s (.hostReturn name rc)).1 = s' at *
  refine ⟨before, inside, rest, hevs, ?_, ?_, ?_⟩
  · rw [hk, hframes]
  · rw [htrap, hostTrap_text, hmessage]
  · intro t ht hne
    rw [← hmessage] at hne
    obtain ⟨hpos, hown⟩ := howner hne
    have hbuf := hbuffer hpos
    have hframe : s'.msgFrame = k + inside.countP isTrampoline := by omega
    refine ⟨_, hframe ▸ hostTrap_frame (htrap ▸ ht) hne, lastEntered_of_countP hcount, ?_, ?_⟩
    · rw [hk]
      omega
    have hnested := List.pairwise_cons.mp (hhosts ▸ hrec.nested)
    rw [hhosts]
    constructor
    · intro hex
      obtain ⟨p, hp, heq⟩ := hex
      rcases List.mem_cons.mp hp with rfl | hp
      · omega
      · have hlt := hnested.1 p hp
        simp only at hlt
        omega
    · intro hzero
      exact ⟨(k, name), List.mem_cons_self .., by omega⟩

/-- A host function that calls the guest again, which calls another host function. -/
def nestedCalls : List CallEv :=
  [.call true true, .trampoline (ascii "f"), .call true true, .trampoline (ascii "g"),
    .hostReturn (ascii "g") 0, .leave ⟨false, .null⟩, .printf (ascii "m")]

/-- The message is read from the buffer of `g`, the second trampoline, which is gone. -/
theorem hostReturn_trap_nested :
    ∃ t, (callStep (Run.exec callStep freshInstance nestedCalls).1
        (.hostReturn (ascii "f") (-12))).2.trap = some t ∧
      some t.text = trapText (-12) (ascii "m") ∧ ∃ n, t.frame = some n ∧
        LastEntered nestedCalls n := by
  have hmeets : Run.Meets callStep Nests freshInstance
      (nestedCalls ++ [.hostReturn (ascii "f") (-12)]) := by
    refine ⟨?_, ?_, ?_, ?_, ?_, ?_, ?_, ?_, trivial⟩
    · exact fun u rest heq => absurd heq (by simp [freshInstance])
    · exact ⟨[], rfl⟩
    · exact fun u rest heq => absurd (List.head_eq_of_cons_eq heq) (by simp)
    · exact ⟨_, rfl⟩
    · exact ⟨_, _, rfl⟩
    · exact ⟨_, _, rfl, fun h => absurd h (by decide)⟩
    · exact ⟨_, _, _, rfl⟩
    · exact ⟨_, _, rfl⟩
  obtain ⟨_, _, _, _, _, htext, hframe⟩ := hostReturn_trap nestedCalls (ascii "f") (-12) hmeets
  have hmessage : firstMessage (lastMessages (nestedCalls ++ [.hostReturn (ascii "f") (-12)])) =
      ascii "m" := by decide
  rw [hmessage] at htext hframe
  obtain ⟨t, ht, heq⟩ := Option.map_eq_some_iff.mp (htext.trans rfl)
  obtain ⟨n, hn, hlast, -⟩ := hframe t ht (by decide)
  exact ⟨t, ht, congrArg some heq, n, hn, hlast⟩

end NgxWasm.Wavm
