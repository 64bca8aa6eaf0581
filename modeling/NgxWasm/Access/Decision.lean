import NgxWasm.Access.Check
import NgxWasm.Lib.Run

/-!
# Decisions of an access control list

A host can be written as an IPv4 address and as the IPv4-mapped IPv6 address. The
rules of the two families lie in two trees and each address is looked up in the tree of
its own form only; the recorded addresses are compared in the IPv4 form.
-/

namespace NgxWasm.Access.Decision

open NgxWasm NgxWasm.Lib.LongestMatch NgxWasm.Lib.Run NgxWasm.Access.Check

/-! ### Hosts -/

/-- `::ffff:a.b.c.d`. -/
def mapped (n : BitVec 32) : BitVec 128 := (0xffff : BitVec 96) ++ n

def isMapped (b : BitVec 128) : Prop := b.extractLsb' 32 96 = 0xffff

instance (b : BitVec 128) : Decidable (isMapped b) := inferInstanceAs (Decidable (_ = _))

def low (b : BitVec 128) : BitVec 32 := b.extractLsb' 0 32

/-- The address of a host, the same for both of its forms. -/
def hostAddr : Sockaddr → Option (BitVec 128)
  | .inet addr => some (mapped (ntohl addr))
  | .inet6 addr => some addr
  | .unix => none

def hostNet : Cidr → Net 128
  | .inet addr mask => ⟨mapped (ntohl addr), BitVec.allOnes 96 ++ ntohl mask⟩
  | .inet6 addr mask => ⟨addr, mask⟩

theorem mapped_low {b : BitVec 128} (h : isMapped b) : mapped (low b) = b := by
  have happend : b.extractLsb' 32 96 ++ b.extractLsb' 0 32 = b.extractLsb' 0 128 :=
    BitVec.extractLsb'_append_extractLsb'_eq_extractLsb' rfl
  rw [isMapped] at h
  rw [mapped, low, ← h, happend]
  exact BitVec.extractLsb'_eq_self

theorem isMapped_mapped (n : BitVec 32) : isMapped (mapped n) :=
  BitVec.extractLsb'_append_eq_left

theorem mapped_inj {m n : BitVec 32} : mapped m = mapped n ↔ m = n :=
  BitVec.append_right_inj _

theorem ntohl_htonl (n : BitVec 32) : ntohl (htonl n) = n := by
  have hhigh : n.extractLsb' 24 8 ++ n.extractLsb' 16 8 = n.extractLsb' 16 16 :=
    BitVec.extractLsb'_append_extractLsb'_eq_extractLsb' rfl
  have hlow : n.extractLsb' 8 8 ++ n.extractLsb' 0 8 = n.extractLsb' 0 16 :=
    BitVec.extractLsb'_append_extractLsb'_eq_extractLsb' rfl
  have hall : n.extractLsb' 16 16 ++ n.extractLsb' 0 16 = n.extractLsb' 0 32 :=
    BitVec.extractLsb'_append_extractLsb'_eq_extractLsb' rfl
  simp only [ntohl, htonl, hhigh, hlow, hall]
  exact BitVec.extractLsb'_eq_self

theorem append_inj {m n : ℕ} {a b : BitVec m} {c d : BitVec n} (h : a ++ c = b ++ d) :
    a = b ∧ c = d := by
  have hleft := congrArg (BitVec.extractLsb' n m) h
  have hright := congrArg (BitVec.extractLsb' 0 n) h
  rw [BitVec.extractLsb'_append_eq_left, BitVec.extractLsb'_append_eq_left] at hleft
  rw [BitVec.extractLsb'_append_eq_right, BitVec.extractLsb'_append_eq_right] at hright
  exact ⟨hleft, hright⟩

theorem ntohl_inj {x y : InAddr} (h : ntohl x = ntohl y) : x = y := by
  obtain ⟨x0, x1, x2, x3⟩ := x
  obtain ⟨y0, y1, y2, y3⟩ := y
  obtain ⟨hhigh, hlow⟩ := append_inj h
  obtain ⟨h0, h1⟩ := append_inj hhigh
  obtain ⟨h2, h3⟩ := append_inj hlow
  simp only at h0 h1 h2 h3
  rw [h0, h1, h2, h3]

/-! ### Rules of a host -/

def rules4 (config : List (Cidr × Tag)) : List (Net 32 × Tag) :=
  config.filterMap fun r => match r.1 with
    | .inet addr mask => some (⟨ntohl addr, ntohl mask⟩, r.2)
    | .inet6 _ _ => none

def rules6 (config : List (Cidr × Tag)) : List (Net 128 × Tag) :=
  config.filterMap fun r => match r.1 with
    | .inet _ _ => none
    | .inet6 addr mask => some (⟨addr, mask⟩, r.2)

def hostRules (config : List (Cidr × Tag)) : List (Net 128 × Tag) :=
  config.map fun r => (hostNet r.1, r.2)

/-- An IPv4 network among the addresses of hosts. -/
def widen (n : Net 32) : Net 128 := ⟨mapped n.key, BitVec.allOnes 96 ++ n.mask⟩

theorem and_wide (h k : BitVec 96) (x y : BitVec 32) :
    ((h ++ x : BitVec 128) &&& (k ++ y : BitVec 128)) = ((h &&& k) ++ (x &&& y) : BitVec 128) :=
  BitVec.and_append

theorem widen_covers (n : Net 32) (a : BitVec 32) :
    (widen n).Covers (mapped a) ↔ n.Covers a := by
  simp only [Net.Covers, widen, mapped, and_wide]
  exact BitVec.append_right_inj _

theorem widen_mask (m n : Net 32) : (widen m).mask ≤ (widen n).mask ↔ m.mask ≤ n.mask := by
  have happend : ∀ x : BitVec 32,
      (BitVec.allOnes 96 ++ x).toNat = (2 ^ 96 - 1) * 2 ^ 32 + x.toNat := by
    intro x
    rw [BitVec.toNat_append, BitVec.toNat_allOnes, ← Nat.shiftLeft_add_eq_or_of_lt x.isLt,
      Nat.shiftLeft_eq]
  simp only [widen, BitVec.le_def, happend]
  omega

theorem widen_not_covers {b : BitVec 128} (h : ¬ isMapped b) (n : Net 32) :
    ¬ (widen n).Covers b := by
  intro hc
  have hsplit : b.extractLsb' 32 96 ++ b.extractLsb' 0 32 = b := by
    have happend : b.extractLsb' 32 96 ++ b.extractLsb' 0 32 = b.extractLsb' 0 128 :=
      BitVec.extractLsb'_append_extractLsb'_eq_extractLsb' rfl
    rw [happend]
    exact BitVec.extractLsb'_eq_self
  simp only [Net.Covers, widen, mapped] at hc
  rw [← hsplit, and_wide, and_wide] at hc
  have hhigh := (append_inj hc).1
  rw [BitVec.and_allOnes, BitVec.and_allOnes] at hhigh
  exact h hhigh

theorem mem_hostRules {config : List (Cidr × Tag)} {n : Net 128} {t : Tag} :
    (n, t) ∈ hostRules config ↔
      (∃ m, (m, t) ∈ rules4 config ∧ n = widen m) ∨ (n, t) ∈ rules6 config := by
  induction config with
  | nil => simp [hostRules, rules4, rules6]
  | cons r config ih =>
    obtain ⟨c, u⟩ := r
    simp only [hostRules, List.map_cons, List.mem_cons] at ih ⊢
    rw [ih]
    cases c with
    | inet addr mask =>
      simp only [rules4, rules6, List.filterMap_cons, List.mem_cons, Prod.mk.injEq, hostNet]
      constructor
      · rintro (⟨rfl, rfl⟩ | ⟨m, hm, rfl⟩ | h)
        · exact .inl ⟨_, .inl ⟨rfl, rfl⟩, rfl⟩
        · exact .inl ⟨m, .inr hm, rfl⟩
        · exact .inr h
      · rintro (⟨m, (⟨rfl, rfl⟩ | hm), rfl⟩ | h)
        · exact .inl ⟨rfl, rfl⟩
        · exact .inr (.inl ⟨m, hm, rfl⟩)
        · exact .inr (.inr h)
    | inet6 addr mask =>
      simp only [rules4, rules6, List.filterMap_cons, List.mem_cons, Prod.mk.injEq, hostNet]
      constructor
      · rintro (⟨rfl, rfl⟩ | h | h)
        · exact .inr (.inl ⟨rfl, rfl⟩)
        · exact .inl h
        · exact .inr (.inr h)
      · rintro (h | ⟨rfl, rfl⟩ | h)
        · exact .inr (.inl h)
        · exact .inl ⟨rfl, rfl⟩
        · exact .inr (.inr h)

/-- A host is covered by the rules of one family or of the other. -/
theorem covered_host (config : List (Cidr × Tag)) (a : BitVec 32) :
    Covered (hostRules config) (mapped a) ↔
      Covered (rules4 config) a ∨ Covered (rules6 config) (mapped a) := by
  constructor
  · rintro ⟨⟨n, t⟩, hr, hc⟩
    rcases mem_hostRules.mp hr with ⟨m, hm, rfl⟩ | h6
    · exact .inl ⟨(m, t), hm, (widen_covers m a).mp hc⟩
    · exact .inr ⟨(n, t), h6, hc⟩
  · rintro (⟨⟨m, t⟩, hm, hc⟩ | ⟨⟨n, t⟩, hn, hc⟩)
    · exact ⟨(widen m, t), mem_hostRules.mpr (.inl ⟨m, hm, rfl⟩), (widen_covers m a).mpr hc⟩
    · exact ⟨(n, t), mem_hostRules.mpr (.inr hn), hc⟩

/-- Only the IPv4 rules cover the host. -/
theorem longest_host_of_four {config : List (Cidr × Tag)} {a : BitVec 32}
    (h : ¬ Covered (rules6 config) (mapped a)) (t : Tag) :
    Longest (hostRules config) (mapped a) t ↔ Longest (rules4 config) a t := by
  rw [← longest_map (f := widen) (b := mapped a) (fun n => widen_covers n a) widen_mask]
  apply longest_congr
  intro n u hc
  rw [mem_hostRules, List.mem_map]
  constructor
  · rintro (⟨m, hm, rfl⟩ | h6)
    · exact ⟨(m, u), hm, rfl⟩
    · exact absurd ⟨(n, u), h6, hc⟩ h
  · rintro ⟨⟨m, v⟩, hm, heq⟩
    cases heq
    exact .inl ⟨m, hm, rfl⟩

/-- Only the IPv6 rules cover the host. -/
theorem longest_host_of_six {config : List (Cidr × Tag)} {b : BitVec 128}
    (h : ∀ m t, (m, t) ∈ rules4 config → ¬ (widen m).Covers b) (t : Tag) :
    Longest (hostRules config) b t ↔ Longest (rules6 config) b t := by
  apply longest_congr
  intro n u hc
  rw [mem_hostRules]
  constructor
  · rintro (⟨m, hm, rfl⟩ | h6)
    · exact absurd hc (h m u hm)
    · exact h6
  · intro h6
    exact .inr h6

/-! ### What nginx provides -/

def InAddr.and (x m : InAddr) : InAddr := ⟨x.b0 &&& m.b0, x.b1 &&& m.b1, x.b2 &&& m.b2, x.b3 &&& m.b3⟩

/-- The family and address that `ngx_cidr_match` compares. -/
def normal : Sockaddr → Sockaddr
  | .inet6 b => if isMapped b then .inet (htonl (low b)) else .inet6 b
  | sa => sa

def MatchesCidr : Sockaddr → Cidr → Prop
  | .inet a, .inet addr mask => InAddr.and a mask = addr
  | .inet6 b, .inet6 addr mask => b &&& mask = addr
  | _, _ => False

/-- The trees find the longest prefix, `ngx_cidr_match` finds an entry of the address's
family with the masked address, an IPv4-mapped address being an IPv4 one. -/
structure Provided (T4 : Table 32 Tag) (T6 : Table 128 Tag)
    (cidrMatch : Sockaddr → List Cidr → Bool) : Prop where
  v4 : T4.Matches
  v6 : T6.Matches
  cidr : ∀ sa cs, cidrMatch sa cs = true ↔ ∃ c ∈ cs, MatchesCidr (normal sa) c

/-- `ngx_ptocidr` makes prefix masks. -/
structure PrefixMasks (config : List (Cidr × Tag)) : Prop where
  v4 : ∀ r ∈ rules4 config, r.1.IsPrefix
  v6 : ∀ r ∈ rules6 config, r.1.IsPrefix

section
variable {T4 : Table 32 Tag} {T6 : Table 128 Tag} {cidrMatch : Sockaddr → List Cidr → Bool}

theorem insertRules_load (config : List (Cidr × Tag)) : ∀ (ctx ctx' : Ctx T4 T6),
    insertRules ctx config = some ctx' →
      T4.load ctx.addrsV4 (rules4 config) = some ctx'.addrsV4 ∧
        T6.load ctx.addrsV6 (rules6 config) = some ctx'.addrsV6 := by
  induction config with
  | nil =>
    intro ctx ctx' h
    cases h
    exact ⟨rfl, rfl⟩
  | cons r config ih =>
    intro ctx ctx' h
    obtain ⟨c, t⟩ := r
    cases c with
    | inet addr mask =>
      simp only [insertRules, ctxInsertCidr] at h
      cases hins : T4.insert ctx.addrsV4 ⟨ntohl addr, ntohl mask⟩ t with
      | none => simp [hins] at h
      | some tree =>
        simp only [hins, Option.map_some] at h
        obtain ⟨h4, h6⟩ := ih _ _ h
        refine ⟨?_, h6⟩
        simp only [rules4, List.filterMap_cons, Table.load, hins]
        exact h4
    | inet6 addr mask =>
      simp only [insertRules, ctxInsertCidr] at h
      cases hins : T6.insert ctx.addrsV6 ⟨addr, mask⟩ t with
      | none => simp [hins] at h
      | some tree =>
        simp only [hins, Option.map_some] at h
        obtain ⟨h4, h6⟩ := ih _ _ h
        refine ⟨h4, ?_⟩
        simp only [rules6, List.filterMap_cons, Table.load, hins]
        exact h6

/-! ### What was recorded -/

/-- An earlier call recorded the address. -/
def Added (hist : List (Call × Rc)) (sa : Sockaddr) : Prop := ∃ push, (.add sa push, .ok) ∈ hist

theorem addAddr_ctx (acl : Acl T4 T6) (sa : Sockaddr) (push : Bool) :
    (addAddr acl sa push).1.ctx = acl.ctx := by
  simp only [addAddr]
  split
  · rfl
  · split
    · rfl
    · split <;> rfl

/-- What one addition records. -/
theorem addAddr_recorded (acl : Acl T4 T6) (sa : Sockaddr) (push : Bool) (c : Cidr) :
    c ∈ (addAddr acl sa push).1.recordedAddrs ↔
      c ∈ acl.recordedAddrs ∨ (addAddr acl sa push).2 = .ok ∧ sockaddrToCidr sa = some c := by
  simp only [addAddr]
  split
  · simp
  · split
    next hnone => simp
    next cidr hcidr =>
      split
      · simp [hcidr, eq_comm]
      · simp

theorem step_ctx (acl : Acl T4 T6) (c : Call) : (step cidrMatch acl c).1.ctx = acl.ctx := by
  cases c with
  | add sa push => exact addAddr_ctx acl sa push
  | check sa => rfl

theorem run_ctx (calls : List Call) : ∀ acl : Acl T4 T6,
    (exec (step cidrMatch) acl calls).1.ctx = acl.ctx := by
  induction calls with
  | nil => intro acl; rfl
  | cons c calls ih =>
    intro acl
    rw [exec_cons, ih, step_ctx]

theorem run_recorded (c : Cidr) (calls : List Call) : ∀ acl : Acl T4 T6,
    c ∈ (exec (step cidrMatch) acl calls).1.recordedAddrs ↔
      c ∈ acl.recordedAddrs ∨
        ∃ sa, Added (calls.zip (exec (step cidrMatch) acl calls).2) sa ∧
          sockaddrToCidr sa = some c := by
  induction calls with
  | nil =>
    intro acl
    simp [Added]
  | cons d calls ih =>
    intro acl
    rw [exec_cons]
    simp only [ih, List.zip_cons_cons]
    cases d with
    | check sa =>
      have hsame : (step cidrMatch acl (.check sa)).1 = acl := rfl
      simp [hsame, Added]
    | add sa push =>
      simp only [step, addAddr_recorded, Added, List.mem_cons, Prod.mk.injEq, Call.add.injEq]
      constructor
      · rintro ((h | h) | ⟨x, ⟨p, hp⟩, hx⟩)
        · exact .inl h
        · exact .inr ⟨sa, ⟨push, .inl ⟨⟨rfl, rfl⟩, h.1.symm⟩⟩, h.2⟩
        · exact .inr ⟨x, ⟨p, .inr hp⟩, hx⟩
      · rintro (h | ⟨x, ⟨p, hp | hp⟩, hx⟩)
        · exact .inl (.inl h)
        · obtain ⟨⟨rfl, rfl⟩, hrc⟩ := hp
          exact .inl (.inr ⟨hrc.symm, hx⟩)
        · exact .inr ⟨x, ⟨p, hp⟩, hx⟩

theorem and_full (a : InAddr) : InAddr.and a ⟨0xff, 0xff, 0xff, 0xff⟩ = a := by
  have h : ∀ b : BitVec 8, b &&& 0xff = b := by decide
  simp only [InAddr.and, h]

/-- A recorded address is found by the IPv4 form of its host only. -/
theorem match_inet {cs : List Cidr} {sa : Sockaddr} {a : InAddr}
    (hcidr : ∀ sa cs, cidrMatch sa cs = true ↔ ∃ c ∈ cs, MatchesCidr (normal sa) c)
    (hnormal : normal sa = .inet a) {hist : List (Call × Rc)}
    (hrec : ∀ c, c ∈ cs ↔ ∃ x, Added hist x ∧ sockaddrToCidr x = some c) :
    cidrMatch sa cs = true ↔ Added hist (.inet a) := by
  rw [hcidr, hnormal]
  constructor
  · rintro ⟨c, hc, hm⟩
    obtain ⟨x, hx, hxc⟩ := (hrec c).mp hc
    cases x with
    | inet b =>
      cases hxc
      have heq : a = b := by rw [← and_full a]; exact hm
      rw [heq]
      exact hx
    | inet6 b =>
      cases hxc
      exact hm.elim
    | unix => cases hxc
  · intro h
    exact ⟨_, (hrec _).mpr ⟨.inet a, h, rfl⟩, and_full a⟩

theorem match_inet6 {cs : List Cidr} {b : BitVec 128}
    (hcidr : ∀ sa cs, cidrMatch sa cs = true ↔ ∃ c ∈ cs, MatchesCidr (normal sa) c)
    (hmapped : ¬ isMapped b) {hist : List (Call × Rc)}
    (hrec : ∀ c, c ∈ cs ↔ ∃ x, Added hist x ∧ sockaddrToCidr x = some c) :
    cidrMatch (.inet6 b) cs = true ↔ Added hist (.inet6 b) := by
  have hnormal : normal (.inet6 b) = .inet6 b := if_neg hmapped
  rw [hcidr, hnormal]
  constructor
  · rintro ⟨c, hc, hm⟩
    obtain ⟨x, hx, hxc⟩ := (hrec c).mp hc
    cases x with
    | inet a =>
      cases hxc
      exact hm.elim
    | inet6 d =>
      cases hxc
      have heq : b = d := by rw [← BitVec.and_allOnes (x := b)]; exact hm
      rw [heq]
      exact hx
    | unix => cases hxc
  · intro h
    exact ⟨_, (hrec _).mpr ⟨.inet6 b, h, rfl⟩, BitVec.and_allOnes⟩

/-! ### The decision on a host -/

/-- A longest rule that covers the host allows it and none denies it, or none covers it
and it was recorded in one of its forms. -/
def Accepts (config : List (Cidr × Tag)) (hist : List (Call × Rc)) (sa : Sockaddr) : Prop :=
  ∃ h, hostAddr sa = some h ∧
    ((Longest (hostRules config) h .allow ∧ ¬ Longest (hostRules config) h .deny) ∨
      ¬ Covered (hostRules config) h ∧ ∃ x, Added hist x ∧ hostAddr x = some h)

/-- For the host `a` looked up at `x` among the rules of its own family, the other
family's rules and the other form of the address make no difference. -/
structure SidesAgree {w v : ℕ} (own : List (Net w × Tag)) (x : BitVec w)
    (other : List (Net v × Tag)) (y : BitVec v) (host : List (Net 128 × Tag))
    (hist : List (Call × Rc)) (a : InAddr) : Prop where
  ruled : Covered own x → (Longest own x .allow ↔
    Longest host (mapped (ntohl a)) .allow ∧ ¬ Longest host (mapped (ntohl a)) .deny)
  unruled : ¬ Covered own x → Covered other y →
    (Longest other y .allow ↔ Added hist (.inet a))
  fresh : ¬ Covered own x → ¬ Covered other y → Added hist (.inet6 (mapped (ntohl a))) →
    Added hist (.inet a)

/-- The condition on an address; one that is not the form of an IPv4 host has no other. -/
def FamiliesAgree (config : List (Cidr × Tag)) (hist : List (Call × Rc)) : Sockaddr → Prop
  | .inet a => SidesAgree (rules4 config) (ntohl a) (rules6 config) (mapped (ntohl a))
      (hostRules config) hist a
  | .inet6 b => isMapped b → SidesAgree (rules6 config) b (rules4 config) (low b)
      (hostRules config) hist (htonl (low b))
  | .unix => True

theorem sides_iff {w v : ℕ} {own : List (Net w × Tag)} {x : BitVec w}
    {other : List (Net v × Tag)} {y : BitVec v} {host : List (Net 128 × Tag)}
    {hist : List (Call × Rc)} {a : InAddr} {ok : Prop}
    (hcheck : ok ↔ Longest own x .allow ∨ ¬ Covered own x ∧ Added hist (.inet a))
    (hcovered : Covered host (mapped (ntohl a)) ↔ Covered own x ∨ Covered other y)
    (hother : ¬ Covered own x →
      ∀ t, Longest host (mapped (ntohl a)) t ↔ Longest other y t)
    (hone : Longest other y .allow → ¬ Longest other y .deny) :
    (ok ↔ (Longest host (mapped (ntohl a)) .allow ∧ ¬ Longest host (mapped (ntohl a)) .deny) ∨
        ¬ Covered host (mapped (ntohl a)) ∧
          (Added hist (.inet a) ∨ Added hist (.inet6 (mapped (ntohl a))))) ↔
      SidesAgree own x other y host hist a := by
  rw [hcheck, hcovered]
  by_cases hown : Covered own x
  · simp only [hown, not_true_eq_false, false_and, or_false, true_or]
    constructor
    · intro h
      exact ⟨fun _ => h, fun hno => absurd hown hno, fun hno => absurd hown hno⟩
    · intro h
      exact h.ruled hown
  · have hno : ¬ Longest own x .allow := fun h => hown h.covered
    simp only [hown, hno, hother hown, not_false_eq_true, true_and, false_or]
    by_cases hoth : Covered other y
    · simp only [hoth, not_true_eq_false, false_and, or_false]
      constructor
      · intro h
        refine ⟨fun hc => absurd hc hown, ?_, fun _ hn => absurd hoth hn⟩
        intro _ _
        rw [h]
        exact ⟨fun hallow => ⟨hallow, hone hallow⟩, fun hboth => hboth.1⟩
      · intro h
        rw [← h.unruled hown hoth]
        exact ⟨fun hallow => ⟨hallow, hone hallow⟩, fun hboth => hboth.1⟩
    · have hnot : ¬ Longest other y .allow := fun h => hoth h.covered
      simp only [hoth, hnot, not_false_eq_true, true_and, false_and, false_or]
      constructor
      · intro h
        refine ⟨fun hc => absurd hc hown, fun _ hc => absurd hc hoth, ?_⟩
        intro _ _ hm
        exact h.mpr (.inr hm)
      · intro h
        constructor
        · intro ha
          exact .inl ha
        · rintro (ha | hm)
          · exact ha
          · exact h.fresh hown hoth hm

theorem added_host (hist : List (Call × Rc)) (a : InAddr) :
    (∃ x, Added hist x ∧ hostAddr x = some (mapped (ntohl a))) ↔
      Added hist (.inet a) ∨ Added hist (.inet6 (mapped (ntohl a))) := by
  constructor
  · rintro ⟨x, hx, hh⟩
    cases x with
    | inet b =>
      left
      have heq : b = a := ntohl_inj (mapped_inj.mp (Option.some.inj hh))
      rw [← heq]
      exact hx
    | inet6 b =>
      right
      rw [← Option.some.inj hh]
      exact hx
    | unix => cases hh
  · rintro (h | h)
    · exact ⟨_, h, rfl⟩
    · exact ⟨_, h, rfl⟩

theorem accepts_iff {config : List (Cidr × Tag)} {hist : List (Call × Rc)} {sa : Sockaddr}
    {a : InAddr} (ha : hostAddr sa = some (mapped (ntohl a))) :
    Accepts config hist sa ↔
      (Longest (hostRules config) (mapped (ntohl a)) .allow ∧
          ¬ Longest (hostRules config) (mapped (ntohl a)) .deny) ∨
        ¬ Covered (hostRules config) (mapped (ntohl a)) ∧
          (Added hist (.inet a) ∨ Added hist (.inet6 (mapped (ntohl a)))) := by
  rw [← added_host]
  constructor
  · rintro ⟨h, hh, hcond⟩
    rw [ha] at hh
    rw [Option.some.inj hh]
    exact hcond
  · intro hcond
    exact ⟨_, ha, hcond⟩

/-- An address of no IPv4 host has one form and meets the IPv6 rules only. -/
theorem accepts_plain {config : List (Cidr × Tag)} {hist : List (Call × Rc)} {b : BitVec 128}
    (hmapped : ¬ isMapped b)
    (hone : Longest (rules6 config) b .allow → ¬ Longest (rules6 config) b .deny) :
    Accepts config hist (.inet6 b) ↔
      Longest (rules6 config) b .allow ∨ ¬ Covered (rules6 config) b ∧ Added hist (.inet6 b) := by
  have hhost : ∀ t, Longest (hostRules config) b t ↔ Longest (rules6 config) b t :=
    fun t => longest_host_of_six (fun m u _ => widen_not_covers hmapped m) t
  have hcovered : Covered (hostRules config) b ↔ Covered (rules6 config) b := by
    constructor
    · rintro ⟨⟨n, t⟩, hr, hc⟩
      rcases mem_hostRules.mp hr with ⟨m, -, rfl⟩ | h6
      · exact absurd hc (widen_not_covers hmapped m)
      · exact ⟨(n, t), h6, hc⟩
    · rintro ⟨⟨n, t⟩, hr, hc⟩
      exact ⟨(n, t), mem_hostRules.mpr (.inr hr), hc⟩
  have hadded : (∃ x, Added hist x ∧ hostAddr x = some b) ↔ Added hist (.inet6 b) := by
    constructor
    · rintro ⟨x, hx, hh⟩
      cases x with
      | inet a =>
        refine absurd ?_ hmapped
        rw [← Option.some.inj hh]
        exact isMapped_mapped _
      | inet6 d =>
        rw [← Option.some.inj hh]
        exact hx
      | unix => cases hh
    · intro h
      exact ⟨_, h, rfl⟩
  constructor
  · rintro ⟨h, hh, hcond⟩
    rw [← Option.some.inj hh, hhost, hhost, hcovered, hadded] at hcond
    rcases hcond with ⟨hallow, -⟩ | hrest
    · exact .inl hallow
    · exact .inr hrest
  · intro hcond
    refine ⟨b, rfl, ?_⟩
    rw [hhost, hhost, hcovered, hadded]
    rcases hcond with hallow | hrest
    · exact .inl ⟨hallow, hone hallow⟩
    · exact .inr hrest

theorem checkAddr_ok {acl : Acl T4 T6} {sa : Sockaddr} :
    checkAddr cidrMatch acl sa = .ok ↔
      treeLookup acl.ctx sa = some .allow ∨
        treeLookup acl.ctx sa = none ∧ cidrMatch sa acl.recordedAddrs = true := by
  simp only [checkAddr]
  cases hl : treeLookup acl.ctx sa with
  | none =>
    cases hm : cidrMatch sa acl.recordedAddrs <;> simp
  | some t => cases t <;> simp

end

/-- After any sequence of calls, a check answers what the longest rules and the recorded
addresses say of the host, exactly when the two families agree about it. -/
theorem check_sound_iff {T4 : Table 32 Tag} {T6 : Table 128 Tag}
    {cidrMatch : Sockaddr → List Cidr → Bool} (provided : Provided T4 T6 cidrMatch)
    {config : List (Cidr × Tag)} (masks : PrefixMasks config) {ctx : Ctx T4 T6}
    (loaded : insertRules newCtx config = some ctx) (calls : List Call) (sa : Sockaddr)
    (ip : sa ≠ .unix) :
    (checkAddr cidrMatch (exec (step cidrMatch) (aclInit ctx) calls).1 sa = .ok ↔
        Accepts config (calls.zip (exec (step cidrMatch) (aclInit ctx) calls).2) sa) ↔
      FamiliesAgree config (calls.zip (exec (step cidrMatch) (aclInit ctx) calls).2) sa := by
  obtain ⟨hload4, hload6⟩ := insertRules_load config newCtx ctx loaded
  have hctx : (exec (step cidrMatch) (aclInit ctx) calls).1.ctx = ctx :=
    run_ctx calls (aclInit ctx)
  have hrec : ∀ c, c ∈ (exec (step cidrMatch) (aclInit ctx) calls).1.recordedAddrs ↔
      ∃ x, Added (calls.zip (exec (step cidrMatch) (aclInit ctx) calls).2) x ∧
        sockaddrToCidr x = some c := by
    intro c
    rw [run_recorded c calls (aclInit ctx)]
    simp [aclInit]
  have hfind4 := provided.v4 _ _ masks.v4 hload4
  have hfind6 := provided.v6 _ _ masks.v6 hload6
  have hnone4 := provided.v4.none_iff masks.v4 hload4
  have hnone6 := provided.v6.none_iff masks.v6 hload6
  generalize hhist : calls.zip (exec (step cidrMatch) (aclInit ctx) calls).2 = hist at *
  generalize (exec (step cidrMatch) (aclInit ctx) calls).1 = acl at *
  have hone4 : ∀ a, Longest (rules4 config) a .allow → ¬ Longest (rules4 config) a .deny := by
    intro a hallow hdeny
    have h1 := (hfind4 a .allow).mpr hallow
    have h2 := (hfind4 a .deny).mpr hdeny
    rw [h1] at h2
    cases h2
  have hone6 : ∀ a, Longest (rules6 config) a .allow → ¬ Longest (rules6 config) a .deny := by
    intro a hallow hdeny
    have h1 := (hfind6 a .allow).mpr hallow
    have h2 := (hfind6 a .deny).mpr hdeny
    rw [h1] at h2
    cases h2
  cases sa with
  | unix => exact absurd rfl ip
  | inet a =>
    rw [accepts_iff rfl]
    apply sides_iff
    · rw [checkAddr_ok, match_inet provided.cidr rfl hrec]
      simp only [treeLookup, hctx, hfind4, hnone4]
    · exact covered_host config (ntohl a)
    · intro hown t
      apply longest_host_of_six
      intro m u hm hc
      exact hown ⟨(m, u), hm, (widen_covers m _).mp hc⟩
    · exact hone6 _
  | inet6 b =>
    by_cases hmapped : isMapped b
    · have hb : mapped (ntohl (htonl (low b))) = b := by rw [ntohl_htonl, mapped_low hmapped]
      have ha : hostAddr (.inet6 b) = some (mapped (ntohl (htonl (low b)))) := by
        rw [hb]
        rfl
      have hnormal : normal (.inet6 b) = .inet (htonl (low b)) := if_pos hmapped
      have hcovered := covered_host config (low b)
      rw [mapped_low hmapped] at hcovered
      simp only [FamiliesAgree, hmapped, true_imp_iff]
      rw [accepts_iff ha]
      apply sides_iff
      · rw [checkAddr_ok, match_inet provided.cidr hnormal hrec]
        simp only [treeLookup, hctx, hfind6, hnone6]
      · rw [hb, hcovered, or_comm]
      · intro hown t
        have hfour : ¬ Covered (rules6 config) (mapped (low b)) := by
          rw [mapped_low hmapped]
          exact hown
        have hiff := longest_host_of_four hfour t
        rw [mapped_low hmapped] at hiff
        rw [hb]
        exact hiff
      · exact hone4 _
    · have hagree : FamiliesAgree config hist (.inet6 b) := fun h => absurd h hmapped
      rw [iff_true_right hagree, accepts_plain hmapped (hone6 b), checkAddr_ok,
        match_inet6 provided.cidr hmapped hrec]
      simp only [treeLookup, hctx, hfind6, hnone6]

/-! ### A list with rules of both families -/

instance (sa : Sockaddr) (c : Cidr) : Decidable (MatchesCidr sa c) := by
  cases sa <;> cases c <;> unfold MatchesCidr <;> infer_instance

def cidrMatchList (sa : Sockaddr) (cs : List Cidr) : Bool :=
  cs.any fun c => decide (MatchesCidr (normal sa) c)

theorem listTables_provided :
    Provided (listTable 32 Tag) (listTable 128 Tag) cidrMatchList where
  v4 := listTable_matches 32 Tag
  v6 := listTable_matches 128 Tag
  cidr := by
    intro sa cs
    simp [cidrMatchList]

/-- `allow ::/0; deny 10.0.0.0/8;` -/
def bothFamilies : List (Cidr × Tag) :=
  [(.inet6 0 0, .allow), (.inet ⟨10, 0, 0, 0⟩ ⟨255, 0, 0, 0⟩, .deny)]

theorem bothFamilies_masks : PrefixMasks bothFamilies where
  v4 := by
    intro r hr
    rw [List.mem_singleton.mp hr]
    exact ⟨8, by decide, by decide⟩
  v6 := by
    intro r hr
    rw [List.mem_singleton.mp hr]
    exact ⟨0, by decide, by decide⟩

def bothCtx : Ctx (listTable 32 Tag) (listTable 128 Tag) :=
  ⟨[(⟨ntohl ⟨10, 0, 0, 0⟩, ntohl ⟨255, 0, 0, 0⟩⟩, .deny)], [(⟨0, 0⟩, .allow)]⟩

theorem check_sound_ten :
    (checkAddr cidrMatchList
          (exec (step cidrMatchList) (aclInit bothCtx) [.add (.inet ⟨10, 0, 0, 1⟩) true]).1
          (.inet ⟨10, 0, 0, 1⟩) = .ok ↔
        Accepts bothFamilies [(.add (.inet ⟨10, 0, 0, 1⟩) true, .declined)]
          (.inet ⟨10, 0, 0, 1⟩)) ↔
      FamiliesAgree bothFamilies [(.add (.inet ⟨10, 0, 0, 1⟩) true, .declined)]
        (.inet ⟨10, 0, 0, 1⟩) := by
  have loaded : insertRules newCtx bothFamilies = some bothCtx := rfl
  have h := check_sound_iff listTables_provided bothFamilies_masks loaded
    [.add (.inet ⟨10, 0, 0, 1⟩) true] (.inet ⟨10, 0, 0, 1⟩) (by decide)
  exact h

/-- `::ffff:10.0.0.1` is accepted, although the longest rule that covers the host is
the one that denies `10.0.0.0/8`. -/
theorem mapped_form_passes :
    checkAddr cidrMatchList (aclInit bothCtx) (.inet6 (mapped (ntohl ⟨10, 0, 0, 1⟩))) = .ok ∧
      Longest (hostRules bothFamilies) (mapped (ntohl ⟨10, 0, 0, 1⟩)) .deny ∧
      ¬ Accepts bothFamilies [] (.inet6 (mapped (ntohl ⟨10, 0, 0, 1⟩))) := by
  have hdeny : Longest (hostRules bothFamilies) (mapped (ntohl ⟨10, 0, 0, 1⟩)) .deny := by
    refine ⟨hostNet (.inet ⟨10, 0, 0, 0⟩ ⟨255, 0, 0, 0⟩), by decide, by decide, ?_⟩
    intro m u hm _
    rcases List.mem_cons.mp hm with heq | hm
    · cases heq
      decide
    · cases List.mem_singleton.mp hm
      exact BitVec.le_refl _
  refine ⟨by decide, hdeny, ?_⟩
  rintro ⟨h, hh, ⟨-, hnot⟩ | ⟨hnot, -⟩⟩
  · cases hh
    exact hnot hdeny
  · cases hh
    exact hnot hdeny.covered

end NgxWasm.Access.Decision
