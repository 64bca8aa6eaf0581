import Mathlib.Algebra.Order.Ring.Nat
import Mathlib.Data.List.Basic
import Mathlib.Data.List.DropRight

/-!
# HTTP/1.1 requests as bytes

A request line, header fields and an empty line, each ended by CR LF, and behind
them the body. The parser takes tokens, targets and field values as the grammar
of the protocol has them; the space around a value is not part of it.
-/

namespace NgxWasm.Lib.HttpRequest

/-! ### Grammar -/

def isDigit (c : UInt8) : Bool := 48 ≤ c && c ≤ 57

def isAlpha (c : UInt8) : Bool := (65 ≤ c && c ≤ 90) || (97 ≤ c && c ≤ 122)

/-- `tchar`: letters, digits and some punctuation. -/
def isTchar (c : UInt8) : Bool :=
  isDigit c || isAlpha c ||
    [33, 35, 36, 37, 38, 39, 42, 43, 45, 46, 94, 95, 96, 124, 126].contains c

/-- Visible characters and bytes outside ASCII. -/
def isVchar (c : UInt8) : Bool := 33 ≤ c && c != 127

def isOws (c : UInt8) : Bool := c == 32 || c == 9

def isText (c : UInt8) : Bool := isOws c || isVchar c

def IsToken (s : List UInt8) : Prop := s ≠ [] ∧ ∀ c ∈ s, isTchar c = true

def IsTarget (s : List UInt8) : Prop := s ≠ [] ∧ ∀ c ∈ s, isVchar c = true

def IsValue (s : List UInt8) : Prop := ∀ c ∈ s, isText c = true

instance (s : List UInt8) : Decidable (IsToken s) := inferInstanceAs (Decidable (_ ∧ _))

instance (s : List UInt8) : Decidable (IsTarget s) := inferInstanceAs (Decidable (_ ∧ _))

instance (s : List UInt8) : Decidable (IsValue s) :=
  inferInstanceAs (Decidable (∀ c ∈ s, isText c = true))

def trim (s : List UInt8) : List UInt8 := (s.dropWhile isOws).rdropWhile isOws

/-- The number that a string of digits is. -/
def digitsFrom : ℕ → List UInt8 → Option ℕ
  | n, [] => some n
  | n, c :: s => if isDigit c then digitsFrom (n * 10 + (c.toNat - 48)) s else none

def number (s : List UInt8) : Option ℕ := if s = [] then none else digitsFrom 0 s

structure Field where
  name : List UInt8
  value : List UInt8
  deriving Repr, DecidableEq

structure Request where
  method : List UInt8
  target : List UInt8
  fields : List Field
  body : List UInt8
  deriving Repr, DecidableEq

/-! ### Parser -/

/-- The lines up to the empty one, with `line` read of the first, and what follows. -/
def head : List UInt8 → List UInt8 → Option (List (List UInt8) × List UInt8)
  | line, 13 :: 10 :: rest =>
    if line = [] then some ([], rest) else (head [] rest).map fun r => (line :: r.1, r.2)
  | line, c :: rest => head (line ++ [c]) rest
  | _, [] => none

def version : List UInt8 := [72, 84, 84, 80, 47, 49, 46, 49]

def parseRequestLine (line : List UInt8) : Option (List UInt8 × List UInt8) :=
  match line.dropWhile (· != 32) with
  | [] => none
  | _ :: rest =>
    let method := line.takeWhile (· != 32)
    let target := rest.takeWhile (· != 32)
    if rest.dropWhile (· != 32) = 32 :: version ∧ IsToken method ∧ IsTarget target then
      some (method, target)
    else none

def parseField (line : List UInt8) : Option Field :=
  match line.dropWhile (· != 58) with
  | [] => none
  | _ :: value =>
    let name := line.takeWhile (· != 58)
    if IsToken name ∧ IsValue value then some ⟨name, trim value⟩ else none

def parseFields : List (List UInt8) → Option (List Field)
  | [] => some []
  | line :: lines =>
    match parseField line, parseFields lines with
    | some f, some fs => some (f :: fs)
    | _, _ => none

def parseRequest (s : List UInt8) : Option Request :=
  match head [] s with
  | some (line :: lines, body) =>
    match parseRequestLine line, parseFields lines with
    | some (method, target), some fields => some ⟨method, target, fields, body⟩
    | _, _ => none
  | _ => none

/-! ### Writer -/

def requestLine (method target : List UInt8) : List UInt8 :=
  method ++ 32 :: (target ++ 32 :: version)

def fieldLine (f : Field) : List UInt8 := f.name ++ 58 :: 32 :: f.value

def render (r : Request) : List UInt8 :=
  (requestLine r.method r.target :: r.fields.map fieldLine).flatMap (· ++ [13, 10]) ++
    13 :: 10 :: r.body

/-! ### Space around a value -/

variable {s t line : List UInt8} {lines : List (List UInt8)} {body : List UInt8} {r : Request}

theorem trim_ows (s : List UInt8) : trim (32 :: s) = trim s := rfl

theorem trim_subset (s : List UInt8) : ∀ c ∈ trim s, c ∈ s := by
  intro c hc
  exact (List.dropWhile_sublist _).mem ((List.rdropWhile_prefix _ _).mem hc)

theorem IsValue.trim (h : IsValue s) : IsValue (trim s) := fun c hc => h c (trim_subset s c hc)

theorem IsValue.of_trim (h : IsValue (HttpRequest.trim s)) : IsValue s := by
  have hows : ∀ c, isOws c = true → isText c = true := fun c hc => by rw [isText, hc, Bool.true_or]
  have hdrop : IsValue (s.dropWhile isOws) := by
    intro c hc
    rw [← List.rdropWhile_append_rtakeWhile (p := isOws) (l := s.dropWhile isOws)] at hc
    rcases List.mem_append.mp hc with hc | hc
    · exact h c hc
    · exact hows c (List.mem_rtakeWhile_imp hc)
  intro c hc
  rw [← List.takeWhile_append_dropWhile (p := isOws) (l := s)] at hc
  rcases List.mem_append.mp hc with hc | hc
  · exact hows c (List.mem_takeWhile_imp hc)
  · exact hdrop c hc

theorem trim_eq (h : ∀ c ∈ s, isOws c = false) : trim s = s := by
  have hdrop : s.dropWhile isOws = s := by
    cases s with
    | nil => rfl
    | cons c s =>
      rw [List.dropWhile_cons_of_neg]
      simp [h c (List.mem_cons_self ..)]
  rw [trim, hdrop]
  rcases List.eq_nil_or_concat s with rfl | ⟨xs, x, rfl⟩
  · rfl
  · rw [List.concat_eq_append, List.rdropWhile_concat_neg]
    have hx := h x (by simp)
    simp [hx]

/-! ### Reading lines back -/

theorem head_line (hs : (13 : UInt8) ∉ s) (line rest : List UInt8) :
    head line (s ++ 13 :: 10 :: rest) = head (line ++ s) (13 :: 10 :: rest) := by
  induction s generalizing line with
  | nil => rw [List.nil_append, List.append_nil]
  | cons c s ih =>
    have hc : c ≠ 13 := fun he => hs (he ▸ List.mem_cons_self ..)
    have hcons : head line (c :: (s ++ 13 :: 10 :: rest)) = head (line ++ [c]) (s ++ 13 :: 10 :: rest) := by
      rw [head.eq_2]
      intro rest' he
      exact absurd he hc
    rw [List.cons_append, hcons, ih (fun hm => hs (List.mem_cons_of_mem _ hm)), List.append_assoc,
      List.singleton_append]

theorem head_end (line rest : List UInt8) :
    head line (13 :: 10 :: rest) =
      if line = [] then some ([], rest) else (head [] rest).map fun r => (line :: r.1, r.2) := by
  rw [head]

/-- Lines, an empty one and a body are read back as they were written. -/
theorem head_lines (h : ∀ l ∈ lines, l ≠ [] ∧ (13 : UInt8) ∉ l) (body : List UInt8) :
    head [] (lines.flatMap (· ++ [13, 10]) ++ 13 :: 10 :: body) = some (lines, body) := by
  induction lines with
  | nil => rw [List.flatMap_nil, List.nil_append, head_end, if_pos rfl]
  | cons l lines ih =>
    obtain ⟨hne, hcr⟩ := h l (List.mem_cons_self ..)
    have hrest := ih fun k hk => h k (List.mem_cons_of_mem _ hk)
    have hassoc : (l :: lines).flatMap (· ++ [13, 10]) ++ 13 :: 10 :: body =
        l ++ 13 :: 10 :: (lines.flatMap (· ++ [13, 10]) ++ 13 :: 10 :: body) := by simp
    rw [hassoc, head_line hcr, List.nil_append, head_end, if_neg hne, hrest]
    rfl

theorem IsToken.no_colon (h : IsToken s) : ∀ c ∈ s, (c != 58) = true := by
  intro c hc
  have ht := h.2 c hc
  refine bne_iff_ne.mpr fun he => ?_
  rw [he] at ht
  exact absurd ht (by decide)

theorem IsToken.no_space (h : IsToken s) : ∀ c ∈ s, (c != 32) = true := by
  intro c hc
  have ht := h.2 c hc
  refine bne_iff_ne.mpr fun he => ?_
  rw [he] at ht
  exact absurd ht (by decide)

theorem IsTarget.no_space (h : IsTarget s) : ∀ c ∈ s, (c != 32) = true := by
  intro c hc
  have ht := h.2 c hc
  refine bne_iff_ne.mpr fun he => ?_
  rw [he] at ht
  exact absurd ht (by decide)

theorem takeWhile_stop {p : UInt8 → Bool} {c : UInt8} (hs : ∀ d ∈ s, p d = true) (hc : p c = false)
    (t : List UInt8) : (s ++ c :: t).takeWhile p = s ∧ (s ++ c :: t).dropWhile p = c :: t := by
  induction s with
  | nil => simp [hc]
  | cons d s ih =>
    have hd := hs d (List.mem_cons_self ..)
    obtain ⟨htake, hdrop⟩ := ih fun e he => hs e (List.mem_cons_of_mem _ he)
    simp [hd, htake, hdrop]

theorem parseRequestLine_eq (hs : IsToken s) (ht : IsTarget t) :
    parseRequestLine (requestLine s t) = some (s, t) := by
  obtain ⟨htake, hdrop⟩ := takeWhile_stop hs.no_space (c := 32) rfl (t ++ 32 :: version)
  obtain ⟨htake', hdrop'⟩ := takeWhile_stop ht.no_space (c := 32) rfl version
  rw [parseRequestLine, requestLine, hdrop]
  dsimp only
  rw [htake, htake', hdrop', if_pos ⟨rfl, hs, ht⟩]

theorem parseField_eq (hs : IsToken s) (ht : IsValue t) :
    parseField (fieldLine ⟨s, t⟩) = some ⟨s, trim t⟩ := by
  obtain ⟨htake, hdrop⟩ := takeWhile_stop hs.no_colon (c := 58) rfl (32 :: t)
  have hvalue : IsValue (32 :: t) := by
    intro c hc
    rcases List.mem_cons.mp hc with rfl | hc
    · rfl
    · exact ht c hc
  rw [parseField, fieldLine, hdrop]
  dsimp only
  rw [htake, if_pos ⟨hs, hvalue⟩, trim_ows]

theorem parseField_nil (t : List UInt8) : parseField (fieldLine ⟨[], t⟩) = none := by
  rw [parseField, fieldLine]
  simp [IsToken]

/-- A name of token characters that may be empty, and a value. -/
def Field.Clean (f : Field) : Prop := (∀ c ∈ f.name, isTchar c = true) ∧ IsValue f.value

def Field.trimmed (f : Field) : Field := ⟨f.name, trim f.value⟩

theorem parseFields_eq {fs : List Field} (h : ∀ f ∈ fs, f.Clean ∧ f.name ≠ []) :
    parseFields (fs.map fieldLine) = some (fs.map Field.trimmed) := by
  induction fs with
  | nil => rfl
  | cons f fs ih =>
    obtain ⟨⟨hn, hv⟩, hne⟩ := h f (List.mem_cons_self ..)
    have hf : parseField (fieldLine f) = some f.trimmed := parseField_eq ⟨hne, hn⟩ hv
    rw [List.map_cons, parseFields, hf, ih fun g hg => h g (List.mem_cons_of_mem _ hg)]
    rfl

theorem parseFields_nil {fs : List Field} {f : Field} (hf : f ∈ fs) (hn : f.name = []) :
    parseFields (fs.map fieldLine) = none := by
  induction fs with
  | nil => cases hf
  | cons g fs ih =>
    rw [List.map_cons, parseFields]
    rcases List.mem_cons.mp hf with rfl | hf
    · have hnone : parseField (fieldLine f) = none := by
        obtain ⟨name, value⟩ := f
        obtain rfl : name = [] := hn
        exact parseField_nil value
      rw [hnone]
    · rw [ih hf]
      split
      · next h => cases h
      · rfl

theorem no_cr {p : UInt8 → Bool} (h : ∀ c ∈ s, p c = true) (hp : p 13 = false) : (13 : UInt8) ∉ s :=
  fun hm => by rw [h 13 hm] at hp; cases hp

theorem head_render {fs : List Field} (hs : IsToken s) (ht : IsTarget t) (hfs : ∀ f ∈ fs, f.Clean)
    (body : List UInt8) :
    head [] (render ⟨s, t, fs, body⟩) = some (requestLine s t :: fs.map fieldLine, body) := by
  refine head_lines ?_ body
  intro l hl
  rcases List.mem_cons.mp hl with rfl | hl
  · have h1 := no_cr hs.2 rfl
    have h2 := no_cr ht.2 rfl
    have h3 : (13 : UInt8) ∉ version := by decide
    refine ⟨by simp [requestLine], ?_⟩
    simp [requestLine, h1, h2, h3]
  · obtain ⟨f, hf, rfl⟩ := List.mem_map.mp hl
    obtain ⟨hn, hv⟩ := hfs f hf
    have h1 := no_cr hn rfl
    have h2 := no_cr hv rfl
    refine ⟨by simp [fieldLine], ?_⟩
    simp [fieldLine, h1, h2]

theorem parseRequest_render {fs : List Field} (hs : IsToken s) (ht : IsTarget t)
    (hfs : ∀ f ∈ fs, f.Clean ∧ f.name ≠ []) (body : List UInt8) :
    parseRequest (render ⟨s, t, fs, body⟩) = some ⟨s, t, fs.map Field.trimmed, body⟩ := by
  rw [parseRequest, head_render hs ht (fun f hf => (hfs f hf).1)]
  dsimp only
  rw [parseRequestLine_eq hs ht, parseFields_eq hfs]

/-- A field without a name is no field. -/
theorem parseRequest_nil {fs : List Field} {f : Field} (hs : IsToken s) (ht : IsTarget t)
    (hfs : ∀ f ∈ fs, f.Clean) (hf : f ∈ fs) (hn : f.name = []) (body : List UInt8) :
    parseRequest (render ⟨s, t, fs, body⟩) = none := by
  rw [parseRequest, head_render hs ht hfs]
  dsimp only
  rw [parseRequestLine_eq hs ht, parseFields_nil hf hn]

/-! ### What the parser accepts -/

theorem parseRequestLine_sound {m : List UInt8} (h : parseRequestLine line = some (m, t)) :
    IsToken m ∧ IsTarget t := by
  rw [parseRequestLine] at h
  split at h
  · cases h
  · dsimp only at h
    split at h
    · next hc =>
      simp only [Option.some.injEq, Prod.mk.injEq] at h
      obtain ⟨rfl, rfl⟩ := h
      exact hc.2
    · cases h

theorem parseField_sound {f : Field} (h : parseField line = some f) : IsValue f.value := by
  rw [parseField] at h
  split at h
  · cases h
  · dsimp only at h
    split at h
    · next hc =>
      rw [← Option.some.inj h]
      exact hc.2.trim
    · cases h

theorem parseFields_sound {fs : List Field} (h : parseFields lines = some fs) :
    ∀ f ∈ fs, IsValue f.value := by
  induction lines generalizing fs with
  | nil =>
    rw [← Option.some.inj h]
    simp
  | cons l lines ih =>
    rw [parseFields] at h
    split at h
    · next f gs hf hgs =>
      rw [← Option.some.inj h]
      intro g hg
      rcases List.mem_cons.mp hg with rfl | hg
      · exact parseField_sound hf
      · exact ih hgs g hg
    · cases h

theorem parseRequest_sound (h : parseRequest s = some r) :
    IsToken r.method ∧ IsTarget r.target ∧ ∀ f ∈ r.fields, IsValue f.value := by
  rw [parseRequest] at h
  split at h
  · split at h
    · next hline hfields =>
      obtain ⟨hm, ht⟩ := parseRequestLine_sound hline
      rw [← Option.some.inj h]
      exact ⟨hm, ht, parseFields_sound hfields⟩
    · cases h
  · cases h

/-! ### Numbers -/

theorem digitsFrom_digits {n k : ℕ} (h : digitsFrom n s = some k) : ∀ c ∈ s, isDigit c = true := by
  induction s generalizing n with
  | nil => simp
  | cons c s ih =>
    rw [digitsFrom] at h
    split at h
    · next hc =>
      intro d hd
      rcases List.mem_cons.mp hd with rfl | hd
      · exact hc
      · exact ih h d hd
    · cases h

theorem number_digits {k : ℕ} (h : number s = some k) : ∀ c ∈ s, isDigit c = true := by
  rw [number] at h
  split at h
  · cases h
  · exact digitsFrom_digits h

end NgxWasm.Lib.HttpRequest
