import NgxWasm.Http.Headers
import NgxWasm.Socket.Reading

/-!
# Parsers for the reader

Byte machines for a status line, a header line and the size of a chunk, and the handlers of
`Content-Length` and `Transfer-Encoding`. The reader may rely on them.
-/

namespace NgxWasm.Socket.NginxParsers

open NgxWasm NgxWasm.Lib.Parsers NgxWasm.Http.Headers NgxWasm.Socket.HttpReader
open NgxWasm.Socket.Reading

/-- `r->state`, the status and the header that are being parsed. -/
structure Parse where
  state : ℕ
  code : ℕ
  count : ℕ
  hash : ℕ
  lowcase : Bytes
  deriving DecidableEq

def isDigit (ch : UInt8) : Bool := 48 ≤ ch && ch ≤ 57

def digit (ch : UInt8) : ℕ := ch.toNat - 48

def mark {ι : Type} [DecidableEq ι] (i : ι) (a : ℤ) : ι → Option ℤ :=
  fun j => if j = i then some a else none

theorem mark_self {ι : Type} [DecidableEq ι] (i : ι) (a : ℤ) : mark i a i = some a := if_pos rfl

def noMark {ι : Type} : ι → Option ℤ := fun _ => none

/-! ### The status line -/

def statusError (p : Parse) : Step Parse StatusMark StatusResult := .stop .error p false noMark

def statusDone (p : Parse) (stop : ℤ) : Step Parse StatusMark StatusResult :=
  .stop (.ok p.code) { p with state := 0 } true (mark .stop stop)

/-- The states of `HTTP/` and of the version, up to the blank in front of the code. -/
def versionNext (state : ℕ) (ch : UInt8) : Option ℕ :=
  match state with
  | 0 => if ch = 72 then some 1 else none
  | 1 => if ch = 84 then some 2 else none
  | 2 => if ch = 84 then some 3 else none
  | 3 => if ch = 80 then some 4 else none
  | 4 => if ch = 47 then some 5 else none
  | 5 => if isDigit ch ∧ ch ≠ 48 then some 6 else none
  | 6 => if ch = 46 then some 7 else if isDigit ch then some 6 else none
  | 7 => if isDigit ch then some 8 else none
  | 8 => if ch = 32 then some 9 else if isDigit ch then some 8 else none
  | _ => none

/-- The state 9 is that of the code; the text follows, and the end of the line. -/
def statusStep (p : Parse) (ch : UInt8) : Step Parse StatusMark StatusResult :=
  if p.state < 9 then
    match versionNext p.state ch with
    | some state => .more { p with state } noMark
    | none => statusError p
  else if p.state = 9 then
    if ch = 32 then .more p noMark
    else if isDigit ch then
      let p := { p with code := p.code * 10 + digit ch, count := p.count + 1 }
      if p.count = 3 then .more { p with state := 10 } (mark .start (-2)) else .more p noMark
    else statusError p
  else if p.state = 10 then
    if ch = 32 ∨ ch = 46 then .more { p with state := 11 } noMark
    else if ch = 13 then .more { p with state := 12 } noMark
    else if ch = 10 then statusDone p 0
    else statusError p
  else if p.state = 11 then
    if ch = 13 then .more { p with state := 12 } noMark
    else if ch = 10 then statusDone p 0
    else .more p noMark
  else if ch = 10 then statusDone p (-1)
  else statusError p

theorem versionNext_le {state next : ℕ} {ch : UInt8} (h : versionNext state ch = some next) :
    0 < next ∧ next ≤ 9 ∧ next ≤ state + 1 := by
  unfold versionNext at h
  split at h <;> try split_ifs at h
  all_goals cases h <;> decide

/-- What a byte of a status line does. -/
inductive StatusMoves (p : Parse) : Step Parse StatusMark StatusResult → Prop
  | error : StatusMoves p (statusError p)
  | version {t} (early : p.state ≤ 9) (pos : 0 < t.state) (le : t.state ≤ 9)
    (bound : t.state ≤ p.state + 1) : StatusMoves p (.more t noMark)
  | code {t} (here : p.state = 9) (next : t.state = 10) :
    StatusMoves p (.more t (mark .start (-2)))
  | text {t} (late : 10 ≤ p.state) (next : 10 ≤ t.state) : StatusMoves p (.more t noMark)
  | done {stop} (late : 10 ≤ p.state) (near : stop = 0 ∨ stop = -1) :
    StatusMoves p (statusDone p stop)

theorem statusStep_moves (p : Parse) (ch : UInt8) : StatusMoves p (statusStep p ch) := by
  unfold statusStep
  dsimp only
  split_ifs with h1 h2 hblank hdigit hthird h10 hspace hcr hlf h11 hcr' hlf' hend
  · cases hnext : versionNext p.state ch with
    | none => exact .error
    | some state =>
      obtain ⟨hpos, hle, hbound⟩ := versionNext_le hnext
      exact .version (Nat.le_of_lt h1) hpos hle hbound
  · exact .version (Nat.le_of_eq h2) (by omega) (Nat.le_of_eq h2) (by omega)
  · exact .code h2 rfl
  · exact .version (Nat.le_of_eq h2) (show 0 < p.state by omega) (Nat.le_of_eq h2)
      (Nat.le_succ p.state)
  · exact .error
  · exact .text (Nat.le_of_eq h10.symm) (show 10 ≤ 11 by omega)
  · exact .text (Nat.le_of_eq h10.symm) (show 10 ≤ 12 by omega)
  · exact .done (Nat.le_of_eq h10.symm) (.inl rfl)
  · exact .error
  · exact .text (by omega) (show 10 ≤ 12 by omega)
  · exact .done (by omega) (.inl rfl)
  · exact .text (by omega) (by omega)
  · exact .done (by omega) (.inr rfl)
  · exact .error

def statusLine : Parse → Bytes → Reply Parse StatusMark StatusResult := scan statusStep

/-- In the middle of a status line the state is not the first one. -/
theorem statusLine_begun (p : Parse) (xs : Bytes) :
    (statusLine p xs).Holds (fun t n _ => 0 < n → 0 < t.state)
      (fun result _ n _ => result ≠ .error → 0 < n) := by
  apply scan_holds
  · intro s n m x t k _ hstep
    have hmoves := statusStep_moves s x
    rw [hstep] at hmoves
    intro _
    cases hmoves with
    | version early pos le bound => exact pos
    | code here next => omega
    | text late next => omega
  · intro s n m x result t eaten k _ hstep
    have hmoves := statusStep_moves s x
    rw [hstep] at hmoves
    intro hne
    cases hmoves with
    | error => exact absurd rfl hne
    | done late near => exact Nat.succ_pos n
  · intro hpos
    exact absurd hpos (Nat.lt_irrefl 0)

/-- The code lies behind as many bytes as its state needs, and the text behind the code. -/
structure StatusSeen (p : Parse) (n : ℕ) (m : StatusMark → Option ℤ) : Prop where
  early : p.state ≤ 9 → p.state ≤ n
  late : 10 ≤ p.state → ∃ a, m .start = some a ∧ 0 ≤ a ∧ a + 3 ≤ n

def StatusText (result : StatusResult) (p : Parse) (n : ℕ) (m : StatusMark → Option ℤ) : Prop :=
  result ≠ .error → p.state = 0 ∧ ∃ a b, m .start = some a ∧ m .stop = some b ∧ 0 ≤ a ∧ a ≤ b ∧ b ≤ n

theorem statusLine_text {p : Parse} (h : p.state = 0) (xs : Bytes) :
    (statusLine p xs).Holds StatusSeen StatusText := by
  apply scan_holds
  · intro s n m x t k hseen hstep
    have hmoves := statusStep_moves s x
    rw [hstep] at hmoves
    cases hmoves with
    | version early pos le bound =>
      have hn := hseen.early early
      exact ⟨fun _ => by omega, fun late => by omega⟩
    | code here next =>
      have hn := hseen.early (Nat.le_of_eq here)
      refine ⟨fun early => by omega, fun _ => ?_⟩
      exact ⟨n + -2, put_some (mark_self _ _) n m, by omega, by push_cast; omega⟩
    | text late next =>
      obtain ⟨a, ha, h0, hle⟩ := hseen.late late
      refine ⟨fun early => by omega, fun _ => ?_⟩
      exact ⟨a, (put_none rfl n m).trans ha, h0, by push_cast; omega⟩
  · intro s n m x result t eaten k hseen hstep
    have hmoves := statusStep_moves s x
    rw [hstep] at hmoves
    intro hne
    cases hmoves with
    | error => exact absurd rfl hne
    | @done stop late near =>
      obtain ⟨a, ha, h0, hle⟩ := hseen.late late
      refine ⟨rfl, a, n + stop, (put_none rfl n m).trans ha, put_some (mark_self _ _) n m, h0,
        by omega, ?_⟩
      push_cast
      omega
  · exact ⟨fun _ => Nat.le_of_eq h, fun late => by omega⟩

/-! ### A header line -/

def headerInvalid (p : Parse) : Step Parse HeaderMark HeaderResult := .stop .invalid p false noMark

def tolower (ch : UInt8) : UInt8 := if 65 ≤ ch ∧ ch ≤ 90 then ch ||| 0x20 else ch

def nameByte (p : Parse) (ch : UInt8) : Parse :=
  { p with
    state := 1
    hash := (p.hash * 31 + (tolower ch).toNat) % 2 ^ 64
    lowcase := p.lowcase ++ [tolower ch] }

/-- The states are those of the name, the blanks, the value, and of the ends of the line and
of the header. -/
def headerStep (p : Parse) (ch : UInt8) : Step Parse HeaderMark HeaderResult :=
  if p.state = 0 then
    if ch = 13 then .more { p with state := 5 } (mark .nameStart 0)
    else if ch ≤ 32 ∨ ch = 58 then headerInvalid p
    else .more (nameByte { p with hash := 0, lowcase := [] } ch) (mark .nameStart 0)
  else if p.state = 1 then
    if ch = 58 then .more { p with state := 2 } (mark .nameEnd 0)
    else if ch ≤ 32 then headerInvalid p
    else .more (nameByte p ch) noMark
  else if p.state = 2 then
    if ch = 32 then .more p noMark
    else if ch < 32 then headerInvalid p
    else .more { p with state := 3 } (mark .start 0)
  else if p.state = 3 then
    if ch = 13 then .more { p with state := 4 } (mark .stop 0)
    else if ch = 10 ∨ ch = 0 then headerInvalid p
    else .more p noMark
  else if p.state = 4 ∧ ch = 10 then .stop (.ok p.hash p.lowcase) { p with state := 0 } true noMark
  else if p.state = 5 ∧ ch = 10 then .stop .done { p with state := 0 } true noMark
  else headerInvalid p

/-- What a byte of a header line does. -/
inductive HeaderMoves (p : Parse) : Step Parse HeaderMark HeaderResult → Prop
  | invalid : HeaderMoves p (headerInvalid p)
  | begins {t} (here : p.state = 0) (next : t.state = 1 ∨ t.state = 5) :
    HeaderMoves p (.more t (mark .nameStart 0))
  | stays {t} (pos : 0 < p.state) (next : t.state = p.state) : HeaderMoves p (.more t noMark)
  | named {t} (here : p.state = 1) (next : t.state = 2) : HeaderMoves p (.more t (mark .nameEnd 0))
  | value {t} (here : p.state = 2) (next : t.state = 3) : HeaderMoves p (.more t (mark .start 0))
  | ends {t} (here : p.state = 3) (next : t.state = 4) : HeaderMoves p (.more t (mark .stop 0))
  | ok (here : p.state = 4) :
    HeaderMoves p (.stop (.ok p.hash p.lowcase) { p with state := 0 } true noMark)
  | done (here : p.state = 5) : HeaderMoves p (.stop .done { p with state := 0 } true noMark)

theorem headerStep_moves (p : Parse) (ch : UInt8) : HeaderMoves p (headerStep p ch) := by
  unfold headerStep
  split_ifs with h0 hcr hbad h1 hcolon hbad1 h2 hblank hbad2 h3 hcr3 hbad3 h4 h5
  · exact .begins h0 (.inr rfl)
  · exact .invalid
  · exact .begins h0 (.inl rfl)
  · exact .named h1 rfl
  · exact .invalid
  · exact .stays (by omega) h1.symm
  · exact .stays (by omega) rfl
  · exact .invalid
  · exact .value h2 rfl
  · exact .ends h3 rfl
  · exact .invalid
  · exact .stays (by omega) rfl
  · exact .ok h4.1
  · exact .done h5.1
  · exact .invalid

def headerLine : Parse → Bytes → Reply Parse HeaderMark HeaderResult := scan headerStep

theorem headerLine_marks (p : Parse) (xs : Bytes) :
    (headerLine p xs).Holds (fun _ _ m => ∀ i a, m i = some a → 0 ≤ a)
      (fun result _ n m => (result ≠ .invalid → 0 < n) ∧ ∀ i a, m i = some a → 0 ≤ a) := by
  have hput : ∀ (n : ℕ) (k m : HeaderMark → Option ℤ), (∀ i a, m i = some a → 0 ≤ a) →
      (∀ i a, k i = some a → a = 0) → ∀ i a, put n k m i = some a → 0 ≤ a := by
    intro n k m hm hk i a ha
    cases hki : k i with
    | none =>
      rw [put_none hki] at ha
      exact hm i a ha
    | some b =>
      rw [put_some hki] at ha
      have hb := hk i b hki
      have hab : (n : ℤ) + b = a := Option.some.inj ha
      omega
  have hmark : ∀ (j i : HeaderMark) (a : ℤ), mark j 0 i = some a → a = 0 := by
    intro j i a ha
    unfold mark at ha
    split at ha
    · exact (Option.some.inj ha).symm
    · cases ha
  have hno : ∀ (i : HeaderMark) (a : ℤ), noMark i = some a → a = 0 := by
    intro i a ha
    cases ha
  apply scan_holds
  · intro s n m x t k hm hstep
    have hmoves := headerStep_moves s x
    rw [hstep] at hmoves
    apply hput n k m hm
    cases hmoves with
    | begins here next => exact hmark _
    | stays pos next => exact hno
    | named here next => exact hmark _
    | value here next => exact hmark _
    | ends here next => exact hmark _
  · intro s n m x result t eaten k hm hstep
    have hmoves := headerStep_moves s x
    rw [hstep] at hmoves
    cases hmoves with
    | invalid => exact ⟨fun hne => absurd rfl hne, hput n _ m hm hno⟩
    | ok here => exact ⟨fun _ => Nat.succ_pos n, hput n _ m hm hno⟩
    | done here => exact ⟨fun _ => Nat.succ_pos n, hput n _ m hm hno⟩
  · intro i a ha
    cases ha

/-- The parts of a header line that are marked so far. -/
structure HeaderSeen (p : Parse) (n : ℕ) (m : HeaderMark → Option ℤ) : Prop where
  name : 1 ≤ p.state → ∃ a, m .nameStart = some a ∧ a ≤ n ∧
    (2 ≤ p.state → p.state ≤ 4 → ∃ b, m .nameEnd = some b ∧ a ≤ b ∧ b ≤ n ∧
      (3 ≤ p.state → ∃ v, m .start = some v ∧ a ≤ v ∧ v ≤ n ∧
        (4 ≤ p.state → ∃ w, m .stop = some w ∧ v ≤ w ∧ w ≤ n)))

def HeaderText (result : HeaderResult) (p : Parse) (n : ℕ) (m : HeaderMark → Option ℤ) : Prop :=
  ∀ hash lowcase, result = .ok hash lowcase →
    p.state = 0 ∧ ∃ a b v w, m .nameStart = some a ∧ m .nameEnd = some b ∧ m .start = some v ∧
      m .stop = some w ∧ a ≤ b ∧ b ≤ n ∧ a ≤ v ∧ v ≤ w ∧ w ≤ n

theorem headerLine_text {p : Parse} (h : p.state = 0) (xs : Bytes) :
    (headerLine p xs).Holds HeaderSeen HeaderText := by
  apply scan_holds
  · intro s n m x t k hseen hstep
    have hmoves := headerStep_moves s x
    rw [hstep] at hmoves
    refine ⟨fun ht => ?_⟩
    cases hmoves with
    | begins here next =>
      exact ⟨n + 0, put_some (mark_self _ _) n m, by omega, fun h2 h4 => by omega⟩
    | stays pos next =>
      obtain ⟨a, ha, han, hrest⟩ := hseen.name (by omega)
      refine ⟨a, (put_none rfl n m).trans ha, by omega, fun h2 h4 => ?_⟩
      obtain ⟨b, hb, hab, hbn, hrest⟩ := hrest (by omega) (by omega)
      refine ⟨b, (put_none rfl n m).trans hb, hab, by omega, fun h3 => ?_⟩
      obtain ⟨v, hv, hav, hvn, hrest⟩ := hrest (by omega)
      refine ⟨v, (put_none rfl n m).trans hv, hav, by omega, fun h4 => ?_⟩
      obtain ⟨w, hw, hvw, hwn⟩ := hrest (by omega)
      exact ⟨w, (put_none rfl n m).trans hw, hvw, by omega⟩
    | named here next =>
      obtain ⟨a, ha, han, -⟩ := hseen.name (by omega)
      refine ⟨a, (put_none rfl n m).trans ha, by omega, fun h2 h4 => ?_⟩
      exact ⟨n + 0, put_some (mark_self _ _) n m, by omega, by omega, fun h3 => by omega⟩
    | value here next =>
      obtain ⟨a, ha, han, hrest⟩ := hseen.name (by omega)
      obtain ⟨b, hb, hab, hbn, -⟩ := hrest (by omega) (by omega)
      refine ⟨a, (put_none rfl n m).trans ha, by omega, fun h2 h4 => ?_⟩
      refine ⟨b, (put_none rfl n m).trans hb, hab, by omega, fun h3 => ?_⟩
      exact ⟨n + 0, put_some (mark_self _ _) n m, by omega, by omega, fun h4 => by omega⟩
    | ends here next =>
      obtain ⟨a, ha, han, hrest⟩ := hseen.name (by omega)
      obtain ⟨b, hb, hab, hbn, hrest⟩ := hrest (by omega) (by omega)
      obtain ⟨v, hv, hav, hvn, -⟩ := hrest (by omega)
      refine ⟨a, (put_none rfl n m).trans ha, by omega, fun h2 h4 => ?_⟩
      refine ⟨b, (put_none rfl n m).trans hb, hab, by omega, fun h3 => ?_⟩
      refine ⟨v, (put_none rfl n m).trans hv, hav, by omega, fun h4 => ?_⟩
      exact ⟨n + 0, put_some (mark_self _ _) n m, by omega, by omega⟩
  · intro s n m x result t eaten k hseen hstep
    have hmoves := headerStep_moves s x
    rw [hstep] at hmoves
    intro hash lowcase hok
    cases hmoves with
    | invalid => cases hok
    | done here => cases hok
    | ok here =>
      obtain ⟨a, ha, han, hrest⟩ := hseen.name (by omega)
      obtain ⟨b, hb, hab, hbn, hrest⟩ := hrest (by omega) (by omega)
      obtain ⟨v, hv, hav, hvn, hrest⟩ := hrest (by omega)
      obtain ⟨w, hw, hvw, hwn⟩ := hrest (by omega)
      have hn : ((n + if true = true then 1 else 0 : ℕ) : ℤ) = n + 1 := by simp
      rw [hn] 
      exact ⟨rfl, a, b, v, w, (put_none rfl n m).trans ha, (put_none rfl n m).trans hb,
        (put_none rfl n m).trans hv, (put_none rfl n m).trans hw, hab, by omega, hav, hvw,
        by omega⟩
  · exact ⟨fun hpos => by omega⟩

/-! ### The size of a chunk -/

/-- The state of `ngx_http_chunked_t` and its size. -/
structure Chunked where
  state : ℕ
  size : ℕ
  deriving DecidableEq

def chunkError (k : Chunked) : Step Chunked Empty ChunkResult := .stop .error k false noMark

def hexDigit (ch : UInt8) : Option ℕ :=
  if isDigit ch then some (digit ch)
  else if 97 ≤ ch ∧ ch ≤ 102 then some (ch.toNat - 87)
  else if 65 ≤ ch ∧ ch ≤ 70 then some (ch.toNat - 55)
  else none

/-- The states are those of the size, the end of its line, the data, the end of the data,
and of the end of the body. -/
def chunkStep (k : Chunked) (ch : UInt8) : Step Chunked Empty ChunkResult :=
  if k.state = 0 then
    match hexDigit ch with
    | some d => .more ⟨1, d⟩ noMark
    | none => chunkError k
  else if k.state = 1 then
    match hexDigit ch with
    | some d => .more ⟨1, k.size * 16 + d⟩ noMark
    | none =>
      if ch = 13 then .more { k with state := if k.size = 0 then 5 else 2 } noMark else chunkError k
  else if k.state = 2 then
    if ch = 10 then .more { k with state := 3 } noMark else chunkError k
  else if k.state = 3 then
    if k.size ≠ 0 then .stop .ok k false noMark
    else if ch = 13 then .more { k with state := 4 } noMark
    else chunkError k
  else if k.state = 4 then
    if ch = 10 then .more { k with state := 0 } noMark else chunkError k
  else if k.state = 5 then
    if ch = 10 then .more { k with state := 6 } noMark else chunkError k
  else if k.state = 6 then
    if ch = 13 then .more { k with state := 7 } noMark else chunkError k
  else if ch = 10 then .stop .done { k with state := 0 } true noMark
  else chunkError k

def parseChunked : Chunked → Bytes → Reply Chunked Empty ChunkResult := scan chunkStep

theorem chunkStep_ok {k t : Chunked} {ch : UInt8} {eaten : Bool} {m : Empty → Option ℤ}
    (h : chunkStep k ch = .stop .ok t eaten m) : 0 < t.size ∧ eaten = false := by
  by_cases hsize : k.state = 3 ∧ k.size ≠ 0
  · have hstep : chunkStep k ch = .stop .ok k false noMark := by
      simp [chunkStep, hsize.1, hsize.2]
    rw [hstep] at h
    cases h
    exact ⟨Nat.pos_of_ne_zero hsize.2, rfl⟩
  · unfold chunkStep chunkError at h
    repeat' split at h
    all_goals first
      | exact absurd ⟨‹k.state = 3›, ‹k.size ≠ 0›⟩ hsize
      | cases h

/-- A size is answered at the first byte of the data. -/
theorem parseChunked_ok (xs : Bytes) : ∀ k : Chunked, (parseChunked k xs).result = some .ok →
    0 < (parseChunked k xs).next.size ∧ (parseChunked k xs).used < xs.length := by
  induction xs with
  | nil =>
    intro k h
    cases h
  | cons x xs ih =>
    intro k h
    cases hstep : chunkStep k x with
    | more t m =>
      rw [parseChunked, scan_more hstep] at h ⊢
      obtain ⟨hpos, hlt⟩ := ih t h
      refine ⟨hpos, ?_⟩
      rw [after_used, List.length_cons, Nat.add_comm]
      exact Nat.succ_lt_succ hlt
    | stop result t eaten m =>
      rw [parseChunked, scan_stop hstep] at h ⊢
      have hok : result = .ok := Option.some.inj h
      subst hok
      obtain ⟨hpos, heaten⟩ := chunkStep_ok hstep
      subst heaten
      exact ⟨hpos, Nat.succ_pos _⟩

/-! ### The handlers -/

def decimal : Bytes → Option ℕ → Option ℕ
  | [], n => n
  | ch :: bytes, n =>
    if isDigit ch then decimal bytes (some (n.getD 0 * 10 + digit ch)) else none

/-- A length twice, or with chunks, is refused. -/
def handler (_ : List Header) (lengths : Lengths) (h : Header) : Option Lengths :=
  if h.lowcaseKey = ascii "content-length" then
    if lengths.contentLength.isSome ∨ lengths.chunked then none
    else (decimal h.value none).map fun n => { lengths with contentLength := some n }
  else if h.lowcaseKey = ascii "transfer-encoding" ∧ strlow h.value = ascii "chunked" then
    if lengths.contentLength.isSome then none else some { lengths with chunked := true }
  else if lengths.chunked ∧ lengths.contentLength.isSome then none
  else some lengths

theorem handler_exclusive {headers : List Header} {lengths lengths' : Lengths} {h : Header}
    (heq : handler headers lengths h = some lengths') (hchunked : lengths'.chunked = true) :
    lengths'.contentLength = none := by
  unfold handler at heq
  split_ifs at heq with hlen hboth htrans hsome hbad
  · obtain ⟨n, -, rfl⟩ := Option.map_eq_some_iff.mp heq
    exact absurd (.inr hchunked) hboth
  · cases heq
    simpa using hsome
  · cases heq
    have hnone : ¬ lengths.contentLength.isSome = true := fun hsome => hbad ⟨hchunked, hsome⟩
    simpa using hnone

/-- The parsers, for the reader. -/
def nginx : Nginx Parse Chunked where
  zeroed := ⟨0, 0, 0, 0, []⟩
  state := Parse.state
  statusLine := statusLine
  headerLine := headerLine
  unchunked := ⟨0, 0⟩
  parseChunked := parseChunked
  size := Chunked.size
  clearSize := fun k => { k with size := 0 }
  handler := handler

theorem nginx_lawful : Lawful nginx where
  status := scan_resumable statusStep
  header := scan_resumable headerStep
  chunk := scan_resumable chunkStep
  zeroed := rfl
  status_asks := by
    intro p xs hne hr
    have hused := (scan_resumable statusStep).asks p xs hr
    have hbegun := (statusLine_begun p xs).asks hr
    refine Nat.pos_iff_ne_zero.mp (hbegun ?_)
    exact hused ▸ List.length_pos_iff.mpr hne
  status_used := by
    intro p xs code hr
    exact (statusLine_begun p xs).answers hr (by simp)
  status_ok := by
    intro p xs code hp hr
    exact (statusLine_text hp xs).answers hr (by simp)
  header_nil := fun _ => rfl
  header_marks := by
    intro p xs i a ha
    have hmarks := headerLine_marks p xs
    cases hr : (headerLine p xs).result with
    | none => exact hmarks.asks hr i a ha
    | some result => exact (hmarks.answers hr).2 i a ha
  header_asks := by
    intro p xs hp hr hne
    have hseen := (headerLine_text hp xs).asks hr
    obtain ⟨a, ha, hle, -⟩ := hseen.name (Nat.pos_of_ne_zero hne)
    have hused := (scan_resumable headerStep).asks p xs hr
    refine ⟨a, ha, ?_⟩
    rw [← hused]
    exact hle
  header_used := by
    intro p xs result hr hne
    exact ((headerLine_marks p xs).answers hr).1 hne
  header_ok := by
    intro p xs hash lowcase hp hr
    exact (headerLine_text hp xs).answers hr hash lowcase rfl
  chunk_ok := fun k xs hr => parseChunked_ok xs k hr
  exclusive := by
    intro headers lengths h lengths' heq hchunked
    exact handler_exclusive (show handler headers lengths h = some lengths' from heq) hchunked

end NgxWasm.Socket.NginxParsers
