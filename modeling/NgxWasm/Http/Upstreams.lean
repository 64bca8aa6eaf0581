import NgxWasm.Http.Headers

/-!
# The servers of an upstream as a buffer (ngx_http_wasm_upstream.c 591-693)

`ngx_http_wasm_get_upstreams` goes over the servers twice: to add up a size, and to fill a block
of that size.
-/

namespace NgxWasm.Http.Upstreams

set_option maxRecDepth 8192

open NgxWasm
open NgxWasm.Http.Headers (strncasecmp)

/-- `sizeof(sun_path)`. -/
def sunPath : ℕ := 108

/-- `struct sockaddr` of an upstream address. -/
inductive Sockaddr where
  | inet (addr : BitVec 32) (port : BitVec 16)
  | inet6 (addr : BitVec 128) (port : BitVec 16)
  | unix (path : Bytes) (fits : path.length ≤ sunPath)
  deriving DecidableEq

/-- `ngx_inet_get_port`. -/
def Sockaddr.port : Sockaddr → ℕ
  | .inet _ port => port.toNat
  | .inet6 _ port => port.toNat
  | .unix _ _ => 0

/-- `ngx_http_upstream_server_t`. -/
structure Server where
  addrs : List Sockaddr
  weight : ℕ
  maxFails : ℕ
  failTimeout : ℕ
  down : Bool
  backup : Bool
  deriving DecidableEq

/-- `ngx_http_upstream_srv_conf_t`; an upstream that was not declared may have no array of
servers. -/
structure Upstream where
  host : Bytes
  servers : Option (List Server)
  deriving DecidableEq

/-- `sizeof("unix:") - 1` and the path. -/
def sockaddrStrlen : ℕ := 5 + sunPath

inductive Pass where
  | size
  | fill
  deriving Repr, DecidableEq

section

-- `ngx_sock_ntop` without the port, in each of the two passes
variable (ntop : Pass → Sockaddr → Bytes)

/-! ### The first pass -/

/-- `total_addrs` and `len`. -/
structure Sizes where
  totalAddrs : ℕ
  len : ℕ
  deriving Repr, DecidableEq

def sizeAddrs : List Sockaddr → Sizes → Sizes
  | [], st => st
  | a :: addrs, st =>
    sizeAddrs addrs ⟨st.totalAddrs + 1, st.len + 4 + (ntop .size a).length + 4 + 4 * 4⟩

def sizeServers : List Server → Sizes → Sizes
  | [], st => st
  | s :: servers, st =>
    if s.down then sizeServers servers st
    else sizeServers servers (sizeAddrs ntop s.addrs st)

/-! ### The second pass -/

/-- The block and the offset of `p` in it. -/
structure Cursor where
  p : ℕ
  block : Bytes
  deriving Repr, DecidableEq

def Cursor.put (c : Cursor) (bytes : Bytes) : Cursor :=
  ⟨c.p + bytes.length, c.block.take c.p ++ bytes ++ c.block.drop (c.p + bytes.length)⟩

/-- `*(uint32_t *)p = n; p += NGX_PROXY_WASM_PTR_SIZE;`. -/
def Cursor.putWord (c : Cursor) (n : ℕ) : Cursor := c.put (u32Bytes n)

def fillAddrs (s : Server) : List Sockaddr → Cursor → Cursor
  | [], c => c
  | a :: addrs, c =>
    let text := ntop .fill a
    let c := (c.putWord text.length).put text
    let c := (c.putWord a.port).putWord s.weight
    let c := ((c.putWord s.maxFails).putWord s.failTimeout).putWord s.backup.toNat
    fillAddrs s addrs c

def fillServers : List Server → Cursor → Cursor
  | [], c => c
  | s :: servers, c =>
    if s.down then fillServers servers c
    else fillServers servers (fillAddrs ntop s s.addrs c)

inductive Answer where
  | declined
  | error
  /-- `uscf->servers->elts` with no array there. -/
  | crash
  /-- `*ret_len` and the block at `*ret_start`. -/
  | ok (len : ℕ) (block : Bytes)
  deriving Repr, DecidableEq

/-- The upstream of the filter's name. -/
def lookup (upstreams : List Upstream) (name : Bytes) : Option Upstream :=
  upstreams.find? fun u => decide (u.host.length = name.length) && strncasecmp u.host name

/-- `umcf` is `none` without an upstream module; `granted` tells whether `ngx_pcalloc` gives
memory. -/
def getUpstreams (umcf : Option (List Upstream)) (name : Bytes) (granted : Bool) : Answer :=
  match umcf with
  | none => .declined
  | some upstreams =>
    if name.length = 0 then .declined
    else
      match lookup upstreams name with
      | none => .declined
      | some uscf =>
        match uscf.servers with
        | none => .crash
        | some servers =>
          let sizes := sizeServers ntop servers ⟨0, 4⟩
          if granted then
            let c : Cursor := ⟨0, List.replicate sizes.len 0⟩
            .ok sizes.len (fillServers ntop servers (c.putWord sizes.totalAddrs)).block
          else .error

/-! ### What the guest decodes -/

structure Entry where
  addr : Bytes
  port : ℕ
  weight : ℕ
  maxFails : ℕ
  failTimeout : ℕ
  backup : ℕ
  deriving Repr, DecidableEq

def getWord (b : Bytes) : Option (ℕ × Bytes) :=
  if b.length < 4 then none else some (u32Val (b.take 4), b.drop 4)

def getEntry (b : Bytes) : Option (Entry × Bytes) := do
  let (len, b) ← getWord b
  if b.length < len then none
  else
    let addr := b.take len
    let (port, b) ← getWord (b.drop len)
    let (weight, b) ← getWord b
    let (maxFails, b) ← getWord b
    let (failTimeout, b) ← getWord b
    let (backup, b) ← getWord b
    some (⟨addr, port, weight, maxFails, failTimeout, backup⟩, b)

def getEntries : ℕ → Bytes → Option (List Entry × Bytes)
  | 0, b => some ([], b)
  | n + 1, b => do
    let (e, b) ← getEntry b
    let (es, b) ← getEntries n b
    some (e :: es, b)

/-- The entries, and the bytes behind them. -/
def decode (b : Bytes) : Option (List Entry × Bytes) := do
  let (n, b) ← getWord b
  getEntries n b

/-- The entry of an address, before it is encoded. -/
def entry (s : Server) (a : Sockaddr) : Entry :=
  ⟨ntop .fill a, a.port, s.weight, s.maxFails, s.failTimeout, s.backup.toNat⟩

/-- The addresses of the servers that are not down, with the parameters of their servers. -/
def entries (servers : List Server) : List Entry :=
  (servers.filter fun s => !s.down).flatMap fun s => s.addrs.map (entry ntop s)

end

/-- What is left of the numbers of an entry in 32 bits. -/
def Entry.low (e : Entry) : Entry :=
  ⟨e.addr, e.port % 2 ^ 32, e.weight % 2 ^ 32, e.maxFails % 2 ^ 32, e.failTimeout % 2 ^ 32,
    e.backup % 2 ^ 32⟩

def encode (e : Entry) : Bytes :=
  u32Bytes e.addr.length ++ e.addr ++ u32Bytes e.port ++ u32Bytes e.weight ++
    u32Bytes e.maxFails ++ u32Bytes e.failTimeout ++ u32Bytes e.backup

/-! ### Filling a block -/

/-- Written up to the cursor, zero behind it. -/
def filled (w : Bytes) (rest : ℕ) : Cursor := ⟨w.length, w ++ List.replicate rest 0⟩

theorem filled_put (w bytes : Bytes) (rest : ℕ) :
    (filled w (bytes.length + rest)).put bytes = filled (w ++ bytes) rest := by
  have htake : (w ++ List.replicate (bytes.length + rest) (0 : UInt8)).take w.length = w :=
    List.take_left
  have hdrop : (w ++ List.replicate (bytes.length + rest) (0 : UInt8)).drop
      (w.length + bytes.length) = List.replicate rest 0 := by
    rw [← List.drop_drop, List.drop_left, List.drop_replicate, Nat.add_sub_cancel_left]
  rw [filled, Cursor.put, htake, hdrop, filled, List.length_append]

theorem filled_putWord (w : Bytes) (n rest : ℕ) :
    (filled w (4 + rest)).putWord n = filled (w ++ u32Bytes n) rest :=
  filled_put w (u32Bytes n) rest

theorem encode_length (e : Entry) : (encode e).length = e.addr.length + 24 := by
  simp only [encode, List.length_append, u32Bytes_length]
  omega

section

variable {ntop : Pass → Sockaddr → Bytes}

theorem fillAddrs_filled (s : Server) (addrs : List Sockaddr) :
    ∀ (w : Bytes) (rest : ℕ),
      fillAddrs ntop s addrs
          (filled w (((addrs.map (entry ntop s)).flatMap encode).length + rest)) =
        filled (w ++ (addrs.map (entry ntop s)).flatMap encode) rest := by
  induction addrs with
  | nil =>
    intro w rest
    simp [fillAddrs]
  | cons a addrs ih =>
    intro w rest
    have hroom : (((a :: addrs).map (entry ntop s)).flatMap encode).length + rest =
        4 + ((ntop .fill a).length + (4 + (4 + (4 + (4 + (4 +
          (((addrs.map (entry ntop s)).flatMap encode).length + rest))))))) := by
      rw [List.map_cons, List.flatMap_cons, List.length_append, encode_length]
      simp only [entry]
      omega
    rw [hroom, fillAddrs]
    simp only [filled_putWord, filled_put]
    rw [ih]
    simp only [List.map_cons, List.flatMap_cons, encode, entry, List.append_assoc]

theorem entries_cons (s : Server) (servers : List Server) :
    entries ntop (s :: servers) =
      if s.down then entries ntop servers
      else s.addrs.map (entry ntop s) ++ entries ntop servers := by
  unfold entries
  cases hdown : s.down <;> simp [hdown]

theorem fillServers_filled (servers : List Server) :
    ∀ (w : Bytes) (rest : ℕ),
      fillServers ntop servers (filled w (((entries ntop servers).flatMap encode).length + rest)) =
        filled (w ++ (entries ntop servers).flatMap encode) rest := by
  induction servers with
  | nil =>
    intro w rest
    simp [fillServers, entries]
  | cons s servers ih =>
    intro w rest
    rw [fillServers, entries_cons]
    cases s.down with
    | true => exact ih w rest
    | false =>
      simp only [Bool.false_eq_true, if_false]
      rw [List.flatMap_append, List.length_append, Nat.add_assoc, fillAddrs_filled, ih,
        List.append_assoc]

/-! ### Both passes see the same addresses -/

theorem sizeAddrs_eq (hsame : ∀ a, (ntop .size a).length = (ntop .fill a).length) (s : Server)
    (addrs : List Sockaddr) : ∀ st : Sizes, sizeAddrs ntop addrs st =
      ⟨st.totalAddrs + addrs.length,
        st.len + ((addrs.map (entry ntop s)).flatMap encode).length⟩ := by
  induction addrs with
  | nil => intro st; rfl
  | cons a addrs ih =>
    intro st
    rw [sizeAddrs, ih, hsame, List.map_cons, List.flatMap_cons, List.length_append, encode_length,
      List.length_cons]
    simp only [entry, Sizes.mk.injEq]
    omega

theorem sizeServers_eq (hsame : ∀ a, (ntop .size a).length = (ntop .fill a).length)
    (servers : List Server) : ∀ st : Sizes, sizeServers ntop servers st =
      ⟨st.totalAddrs + (entries ntop servers).length,
        st.len + ((entries ntop servers).flatMap encode).length⟩ := by
  induction servers with
  | nil => intro st; rfl
  | cons s servers ih =>
    intro st
    rw [sizeServers, entries_cons]
    cases s.down with
    | true => exact ih st
    | false =>
      simp only [Bool.false_eq_true, if_false]
      rw [ih, sizeAddrs_eq hsame s, List.length_append, List.length_map, List.flatMap_append,
        List.length_append]
      simp only [Sizes.mk.injEq]
      omega

end

/-! ### Decoding -/

theorem u32Val_low (n : ℕ) : u32Val (u32Bytes n) = n % 2 ^ 32 := by
  simp only [u32Bytes, u32Val, UInt8.toNat_ofNat']
  omega

theorem getWord_append (n : ℕ) (rest : Bytes) :
    getWord (u32Bytes n ++ rest) = some (n % 2 ^ 32, rest) := by
  have hlong : ¬ (u32Bytes n ++ rest).length < 4 := by
    rw [List.length_append, u32Bytes_length]
    omega
  have htake : (u32Bytes n ++ rest).take 4 = u32Bytes n := rfl
  have hdrop : (u32Bytes n ++ rest).drop 4 = rest := rfl
  rw [getWord, if_neg hlong, htake, hdrop, u32Val_low]

theorem getEntry_encode {e : Entry} (h : e.addr.length < 2 ^ 32) (rest : Bytes) :
    getEntry (encode e ++ rest) = some (e.low, rest) := by
  have hlong (b : Bytes) : ¬ (e.addr ++ b).length < e.addr.length := by
    rw [List.length_append]
    omega
  simp only [getEntry, encode, List.append_assoc, getWord_append, Option.bind_eq_bind,
    Option.bind_some, Nat.mod_eq_of_lt h, if_neg (hlong _), List.take_left, List.drop_left]
  rfl

/-- The first `n` entries, and then the encoded others. -/
theorem getEntries_encode (n : ℕ) : ∀ (es : List Entry), n ≤ es.length →
    (∀ e ∈ es, e.addr.length < 2 ^ 32) →
    getEntries n (es.flatMap encode) = some ((es.take n).map Entry.low, (es.drop n).flatMap encode) := by
  induction n with
  | zero => intro es _ _; rfl
  | succ n ih =>
    intro es hn hsmall
    cases es with
    | nil => exact absurd hn (by simp)
    | cons e es =>
      rw [List.forall_mem_cons] at hsmall
      rw [List.length_cons, Nat.add_le_add_iff_right] at hn
      rw [List.flatMap_cons, getEntries, getEntry_encode hsmall.1]
      simp only [Option.bind_eq_bind, Option.bind_some]
      rw [ih es hn hsmall.2]
      rfl

section

variable {ntop : Pass → Sockaddr → Bytes}

theorem entries_small (hfits : ∀ a, (ntop .fill a).length ≤ sockaddrStrlen)
    (servers : List Server) : ∀ e ∈ entries ntop servers, e.addr.length < 2 ^ 32 := by
  intro e he
  obtain ⟨s, _, he⟩ := List.mem_flatMap.mp he
  obtain ⟨a, _, rfl⟩ := List.mem_map.mp he
  have := hfits a
  simp only [entry]
  simp only [sockaddrStrlen, sunPath] at this
  omega

/-- The block is filled to its last byte, and read back it gives the addresses of the servers
that are not down with their parameters, each number in 32 bits. -/
theorem get_upstreams_decoded (hsame : ∀ a, (ntop .size a).length = (ntop .fill a).length)
    (hfits : ∀ a, (ntop .fill a).length ≤ sockaddrStrlen) (upstreams : List Upstream)
    (name : Bytes) (uscf : Upstream) (servers : List Server) (hname : name ≠ [])
    (hfound : lookup upstreams name = some uscf) (hservers : uscf.servers = some servers) :
    ∃ block, getUpstreams ntop (some upstreams) name true = .ok block.length block ∧
      block.length = (sizeServers ntop servers ⟨0, 4⟩).len ∧
      (let es := entries ntop servers
       let n := es.length % 2 ^ 32
       decode block = some ((es.take n).map Entry.low, (es.drop n).flatMap encode)) := by
  have hlen : ¬ name.length = 0 := fun h => hname (List.length_eq_zero_iff.mp h)
  have hsizes := sizeServers_eq hsame servers ⟨0, 4⟩
  simp only [Nat.zero_add] at hsizes
  have hfill : (fillServers ntop servers (Cursor.putWord
      ⟨0, List.replicate (4 + ((entries ntop servers).flatMap encode).length) 0⟩
        (entries ntop servers).length)).block =
      u32Bytes (entries ntop servers).length ++ (entries ntop servers).flatMap encode := by
    have hstart := filled_putWord [] (entries ntop servers).length
      ((entries ntop servers).flatMap encode).length
    have hrest := @fillServers_filled ntop servers
      (u32Bytes (entries ntop servers).length) 0
    rw [filled, List.length_nil, List.nil_append, List.nil_append] at hstart
    rw [Nat.add_zero] at hrest
    rw [hstart, hrest]
    simp only [filled, List.replicate_zero, List.append_nil]
  refine ⟨u32Bytes (entries ntop servers).length ++ (entries ntop servers).flatMap encode,
    ?_, ?_, ?_⟩
  · simp only [getUpstreams, if_neg hlen, hfound, hservers, hsizes, if_true, hfill]
    rw [List.length_append, u32Bytes_length]
  · rw [hsizes, List.length_append, u32Bytes_length]
  · have hcount : (entries ntop servers).length % 2 ^ 32 ≤ (entries ntop servers).length :=
      Nat.mod_le _ _
    simp only [decode, getWord_append, Option.bind_eq_bind, Option.bind_some]
    exact getEntries_encode _ _ hcount (entries_small hfits servers)

end

/-! ### Two servers -/

/-- The digits of a byte. -/
def decimal (c : UInt8) : Bytes :=
  let n := c.toNat
  let digit (k : ℕ) : UInt8 := UInt8.ofNat (48 + k % 10)
  if n < 10 then [digit n]
  else if n < 100 then [digit (n / 10), digit n]
  else [digit (n / 100), digit (n / 10), digit n]

/-- The text of a unix or an IPv4 address, and of the unspecified IPv6 address. -/
def sockText : Sockaddr → Bytes
  | .inet addr _ =>
    let octet (k : ℕ) := decimal (UInt8.ofNat (addr.toNat / 2 ^ (8 * k)))
    octet 3 ++ [46] ++ octet 2 ++ [46] ++ octet 1 ++ [46] ++ octet 0
  | .inet6 _ _ => [58, 58]
  | .unix path _ => [117, 110, 105, 120, 58] ++ path

theorem decimal_length (c : UInt8) : (decimal c).length ≤ 3 := by
  simp only [decimal]
  split
  · exact Nat.le_add_left 1 2
  · split
    · exact Nat.le_succ 2
    · exact Nat.le_refl 3

theorem sockText_fits (a : Sockaddr) : (sockText a).length ≤ sockaddrStrlen := by
  cases a with
  | inet addr port =>
    have h (k : ℕ) := decimal_length (UInt8.ofNat (addr.toNat / 2 ^ (8 * k)))
    have h0 := h 0
    have h1 := h 1
    have h2 := h 2
    have h3 := h 3
    simp only [sockText, List.length_append, List.length_cons, List.length_nil, sockaddrStrlen,
      sunPath]
    omega
  | inet6 addr port => exact Nat.le_add_left 2 111
  | unix path fits =>
    simp only [sockText, List.length_append, List.length_cons, List.length_nil, sockaddrStrlen]
    omega

/-- A server that is down, and one with an IPv4 and a unix address. -/
def twoServers (weight : ℕ) : List Server :=
  [⟨[.inet 0x7f000001#32 80], 1, 1, 10, true, false⟩,
    ⟨[.inet 0x0a000002#32 8080, .unix [47, 115] (by decide)], weight, 3, 30, false, true⟩]

theorem two_servers_decoded :
    ∃ block, getUpstreams (fun _ => sockText) (some [⟨[98], some (twoServers 5)⟩]) [66] true =
        .ok block.length block ∧ block.length = 67 ∧
      decode block = some ([⟨[49, 48, 46, 48, 46, 48, 46, 50], 8080, 5, 3, 30, 1⟩,
        ⟨[117, 110, 105, 120, 58, 47, 115], 0, 5, 3, 30, 1⟩], []) := by
  have hsame : ∀ a, (sockText a).length = (sockText a).length := fun _ => rfl
  obtain ⟨block, hrun, hlen, hdecode⟩ := @get_upstreams_decoded (fun _ => sockText) hsame
    sockText_fits [⟨[98], some (twoServers 5)⟩] [66] ⟨[98], some (twoServers 5)⟩ (twoServers 5)
    (by decide) (by decide) rfl
  exact ⟨block, hrun, hlen.trans (by decide), hdecode.trans (by decide)⟩

/-- A weight of 2^32 is decoded as 0. -/
theorem weight_cut_off :
    ¬ ∀ (ntop : Pass → Sockaddr → Bytes) (upstreams : List Upstream) (name : Bytes)
      (uscf : Upstream) (servers : List Server),
      (∀ a, (ntop .size a).length = (ntop .fill a).length) →
      (∀ a, (ntop .fill a).length ≤ sockaddrStrlen) → name ≠ [] →
      lookup upstreams name = some uscf → uscf.servers = some servers →
      ∃ block, getUpstreams ntop (some upstreams) name true = .ok block.length block ∧
        block.length = (sizeServers ntop servers ⟨0, 4⟩).len ∧
        decode block = some (entries ntop servers, []) := by
  intro h
  obtain ⟨block, hrun, -, hdecode⟩ := h (fun _ => sockText)
    [⟨[98], some (twoServers (2 ^ 32))⟩] [98] ⟨[98], some (twoServers (2 ^ 32))⟩
    (twoServers (2 ^ 32)) (fun _ => rfl) sockText_fits (by decide) (by decide) rfl
  have hweights : (match getUpstreams (fun _ => sockText)
      (some [⟨[98], some (twoServers (2 ^ 32))⟩]) [98] true with
      | .ok _ block => decode block
      | _ => none) = some ((entries (fun _ => sockText) (twoServers 0)), []) := by
    decide
  rw [hrun] at hweights
  exact absurd (hdecode.symm.trans hweights) (by decide)

end NgxWasm.Http.Upstreams
