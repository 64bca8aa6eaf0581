import NgxWasm.Http.HeaderHandlers
import NgxWasm.Shm.Kv

/-!
# Configured zones (ngx_wasm_directives.c 282-420, ngx_wa_metrics.c 189-236, ngx_wa_shm.c)

`shm_kv`, `shm_queue` and `slab_size` in the `wasm` block, `ngx_wa_metrics_init_conf` at its
end, and `ngx_wa_shm_lookup_index`. `ngx_shared_memory_add` gives a zone of the same name and
tag again, and the zone of the metrics is added under a name that is not looked up before.
-/

namespace NgxWasm.Shm.ZoneConf

open NgxWasm
open NgxWasm.Http.Headers

inductive ShmType where
  | kv
  | queue
  | metrics
  deriving Repr, DecidableEq

/-- `ngx_wa_shm_t` as it is configured. -/
structure WaShm where
  type : ShmType
  eviction : Kv.Eviction
  name : Bytes
  deriving Repr, DecidableEq

/-- The module that a zone of nginx is for. -/
inductive Tag where
  | wasmx
  | other (id : ℕ)
  deriving Repr, DecidableEq

/-- `ngx_shm_zone_t`. -/
structure Zone where
  name : Bytes
  size : ℕ
  tag : Tag
  data : Option WaShm
  deriving Repr, DecidableEq

/-- `zone` is the place in `cycle->shared_memory`. -/
structure Mapping where
  name : Bytes
  zone : ℕ
  deriving Repr, DecidableEq

structure Conf where
  shms : List Mapping
  zones : List Zone
  slabSize : Option ℕ
  deriving Repr, DecidableEq

/-- The errors that are logged, with what they name. -/
inductive ConfError where
  | invalidName (name : Bytes)
  | invalidSize (value : Bytes)
  | tooSmall (size min : ℕ)
  | notAligned (size page : ℕ)
  | invalidPolicy (policy : Bytes)
  | invalidOption (arg : Bytes)
  | alreadyDefined (name : Bytes)
  | noPolicies (name : Bytes)
  | duplicate
  | otherUse (name : Bytes)
  | sizeConflict (size : ℕ) (name : Bytes) (declared : ℕ)
  deriving Repr, DecidableEq

/-- `ngx_parse_size`; `ngx_atosz` is `ngx_atoof` for another type of the same width. -/
def parseSize (line : Bytes) : Option ℕ :=
  let scaled (scale : ℕ) : Option ℕ :=
    match atoof line.dropLast with
    | none => none
    | some size => if size > atoofMax / scale then none else some (size * scale)
  match line.getLast? with
  | none => none
  | some unit =>
    if unit = 75 ∨ unit = 107 then scaled 1024
    else if unit = 77 ∨ unit = 109 then scaled (1024 * 1024)
    else atoof line

/-- A page is a power of two. -/
def validateShmSize (page : ℕ) (value : Bytes) : Except ConfError ℕ :=
  match parseSize value with
  | none => .error (.invalidSize value)
  | some size =>
    if size < 3 * page then .error (.tooSmall size (3 * page))
    else if size % page ≠ 0 then .error (.notAligned size page)
    else .ok size

def sharedMemoryAdd (zones : List Zone) (name : Bytes) (size : ℕ) :
    Except ConfError (List Zone × ℕ) :=
  match zones.findIdx? fun z => z.name == name with
  | none => .ok (zones ++ [⟨name, size, .wasmx, none⟩], zones.length)
  | some i =>
    match zones[i]? with
    | none => .error (.otherUse name)
    | some z =>
      if z.tag ≠ .wasmx then .error (.otherUse name)
      else if z.size = 0 then .ok (zones.set i { z with size }, i)
      else if size ≠ 0 ∧ size ≠ z.size then .error (.sizeConflict size name z.size)
      else .ok (zones, i)

def lookupIndex (shms : List Mapping) (name : Bytes) : Option ℕ :=
  shms.findIdx? fun m => m.name == name

/-- The words behind the name of the directive; nginx takes two to four. -/
structure Args where
  name : Bytes
  size : Bytes
  more : List Bytes
  deriving Repr, DecidableEq

/-- Only read where it is the last one: `cf->args->nelts == 4`. -/
def Args.arg3 (a : Args) : Option Bytes :=
  match a.more with
  | [arg3] => some arg3
  | _ => none

def evictionEq : Bytes := ascii "eviction="

def parseEviction : Option Bytes → Except ConfError Kv.Eviction
  | none => .ok .slru
  | some arg =>
    if arg = ascii "eviction=lru" then .ok .lru
    else if arg = ascii "eviction=slru" then .ok .slru
    else if arg = ascii "eviction=none" then .ok .none
    else if evictionEq.isPrefixOf arg then .error (.invalidPolicy (arg.drop 9))
    else .error (.invalidOption arg)

def setData (zones : List Zone) (i : ℕ) (shm : WaShm) : List Zone :=
  zones.modify i fun z => { z with data := some shm }

/-- The mapping is pushed and its zone gets the shm. -/
def addMapping (c : Conf) (shm : WaShm) (size : ℕ) : Except ConfError Conf :=
  match sharedMemoryAdd c.zones shm.name size with
  | .error e => .error e
  | .ok (zones, i) =>
    .ok { c with shms := c.shms ++ [⟨shm.name, i⟩], zones := setData zones i shm }

def shmGenericDirective (page : ℕ) (type : ShmType) (a : Args) (c : Conf) : Except ConfError Conf :=
  if a.name = [] then .error (.invalidName a.name)
  else
    match validateShmSize page a.size with
    | .error e => .error e
    | .ok size =>
      match parseEviction a.arg3 with
      | .error e => .error e
      | .ok eviction =>
        match lookupIndex c.shms a.name with
        | some _ => .error (.alreadyDefined a.name)
        | none => addMapping c ⟨type, eviction, a.name⟩ size

def shmKvDirective (page : ℕ) (a : Args) (c : Conf) : Except ConfError Conf :=
  shmGenericDirective page .kv a c

def shmQueueDirective (page : ℕ) (a : Args) (c : Conf) : Except ConfError Conf :=
  if a.arg3.any fun arg => evictionEq.isPrefixOf arg then .error (.noPolicies a.name)
  else shmGenericDirective page .queue a c

def metricsSlabSizeDirective (page : ℕ) (value : Bytes) (c : Conf) : Except ConfError Conf :=
  match c.slabSize with
  | some _ => .error .duplicate
  | none =>
    match validateShmSize page value with
    | .error e => .error e
    | .ok size => .ok { c with slabSize := some size }

def metricsName : Bytes := ascii "metrics"

def metricsShm : WaShm := ⟨.metrics, .none, metricsName⟩

def metricsInitConf (c : Conf) : Except ConfError Conf :=
  addMapping c metricsShm (c.slabSize.getD (1024 * 1024 * 5))

inductive Directive where
  | shmKv (a : Args)
  | shmQueue (a : Args)
  | slabSize (value : Bytes)
  deriving Repr, DecidableEq

def onDirective (page : ℕ) (c : Conf) : Directive → Except ConfError Conf
  | .shmKv a => shmKvDirective page a c
  | .shmQueue a => shmQueueDirective page a c
  | .slabSize value => metricsSlabSizeDirective page value c

def parseBlock (page : ℕ) : Conf → List Directive → Except ConfError Conf
  | c, [] => .ok c
  | c, d :: ds =>
    match onDirective page c d with
    | .error e => .error e
    | .ok c => parseBlock page c ds

/-- `zones` are those of the modules that were configured before. -/
def wasmBlock (page : ℕ) (zones : List Zone) (ds : List Directive) : Except ConfError Conf :=
  match parseBlock page ⟨[], zones, none⟩ ds with
  | .error e => .error e
  | .ok c => metricsInitConf c

/-! ### What the directives ask for -/

def Args.eviction (a : Args) : Kv.Eviction :=
  match parseEviction a.arg3 with
  | .ok eviction => eviction
  | .error _ => .slru

def Args.zone (type : ShmType) (a : Args) : Zone :=
  ⟨a.name, (parseSize a.size).getD 0, .wasmx, some ⟨type, a.eviction, a.name⟩⟩

def Directive.zone : Directive → Option Zone
  | .shmKv a => some (a.zone .kv)
  | .shmQueue a => some (a.zone .queue)
  | .slabSize _ => none

def asked (ds : List Directive) : List Zone := ds.filterMap Directive.zone

/-- The index of a zone in a list after those of other modules. -/
def mappingsFrom (n : ℕ) (zones : List Zone) : List Mapping :=
  zones.mapIdx fun j z => ⟨z.name, n + j⟩

/-- A zone that has passed the checks. -/
structure Checked (page : ℕ) (z : Zone) : Prop where
  name : z.name ≠ []
  aligned : page ∣ z.size
  min : 3 * page ≤ z.size

/-- Every directive so far has its own zone, behind those of the other modules. -/
structure Built (page : ℕ) (others : List Zone) (ds : List Directive) (c : Conf) : Prop where
  zones : c.zones = others ++ asked ds
  shms : c.shms = mappingsFrom others.length (asked ds)
  names : ((asked ds).map fun z => z.name).Nodup
  checked : ∀ z ∈ asked ds, Checked page z
  mine : ∀ z ∈ asked ds, z.tag = .wasmx

theorem asked_snoc (ds : List Directive) (d : Directive) :
    asked (ds ++ [d]) = asked ds ++ d.zone.toList := by
  rw [asked, List.filterMap_append]
  cases h : d.zone with
  | none => simp [asked, h]
  | some z => simp [asked, h]

theorem mappingsFrom_snoc (n : ℕ) (zones : List Zone) (z : Zone) :
    mappingsFrom n (zones ++ [z]) = mappingsFrom n zones ++ [⟨z.name, n + zones.length⟩] := by
  rw [mappingsFrom, List.mapIdx_append, mappingsFrom]
  simp

theorem mappingsFrom_names (n : ℕ) (zones : List Zone) :
    (mappingsFrom n zones).map (fun m => m.name) = zones.map fun z => z.name := by
  apply List.ext_getElem
  · simp [mappingsFrom]
  · intro j h1 h2
    simp [mappingsFrom]

theorem lookupIndex_none {shms : List Mapping} {name : Bytes} (h : lookupIndex shms name = none) :
    name ∉ shms.map fun m => m.name := by
  intro hmem
  obtain ⟨m, hm, heq⟩ := List.mem_map.mp hmem
  have hne := List.findIdx?_eq_none_iff.mp h m hm
  simp [heq] at hne

theorem validateShmSize_ok {page : ℕ} {value : Bytes} {size : ℕ}
    (h : validateShmSize page value = .ok size) :
    parseSize value = some size ∧ page ∣ size ∧ 3 * page ≤ size := by
  rw [validateShmSize] at h
  cases hparse : parseSize value with
  | none => simp [hparse] at h
  | some n =>
    simp only [hparse] at h
    split at h
    · exact absurd h (by simp)
    · split at h
      · exact absurd h (by simp)
      · rename_i hmin halign
        have heq : n = size := Except.ok.inj h
        subst heq
        exact ⟨rfl, Nat.dvd_of_mod_eq_zero (by omega), by omega⟩

/-- A name that no zone has gets a new zone. -/
theorem sharedMemoryAdd_new {zones : List Zone} {name : Bytes} (size : ℕ)
    (h : ∀ z ∈ zones, z.name ≠ name) :
    sharedMemoryAdd zones name size =
      .ok (zones ++ [⟨name, size, .wasmx, none⟩], zones.length) := by
  have hnone : (zones.findIdx? fun z => z.name == name) = none := by
    apply List.findIdx?_eq_none_iff.mpr
    intro z hz
    simpa using h z hz
  rw [sharedMemoryAdd, hnone]

/-- A name that is taken is only given again by this module. -/
theorem sharedMemoryAdd_taken {zones zones' : List Zone} {name : Bytes} {size i : ℕ}
    (hsizes : ∀ z ∈ zones, z.tag = .wasmx → z.size ≠ 0)
    (htaken : ∃ z ∈ zones, z.name = name)
    (h : sharedMemoryAdd zones name size = .ok (zones', i)) :
    ∃ z, zones[i]? = some z ∧ z.name = name ∧ z.tag = .wasmx ∧ zones' = zones := by
  rw [sharedMemoryAdd] at h
  cases hfind : zones.findIdx? fun z => z.name == name with
  | none =>
    obtain ⟨z, hz, hname⟩ := htaken
    have hne := List.findIdx?_eq_none_iff.mp hfind z hz
    simp [hname] at hne
  | some k =>
    obtain ⟨hk, hname, _⟩ := List.findIdx?_eq_some_iff_getElem.mp hfind
    simp only [hfind, List.getElem?_eq_getElem hk] at h
    split at h
    · exact absurd h (by simp)
    · rename_i htag
      have hmine : zones[k].tag = .wasmx := not_not.mp htag
      rw [if_neg (hsizes _ (List.getElem_mem hk) hmine)] at h
      split at h
      · exact absurd h (by simp)
      · simp only [Except.ok.injEq, Prod.mk.injEq] at h
        obtain ⟨hzones, hi⟩ := h
        subst hi
        exact ⟨zones[k], List.getElem?_eq_getElem hk, by simpa using hname, hmine, hzones.symm⟩

/-! ### One directive -/

theorem setData_last (zones : List Zone) (z : Zone) (shm : WaShm) :
    setData (zones ++ [z]) zones.length shm = zones ++ [{ z with data := some shm }] := by
  rw [setData]
  induction zones with
  | nil => rfl
  | cons x zones ih =>
    rw [List.cons_append, List.length_cons, List.modify_succ_cons, ih]
    rfl

theorem generic_ok {page : ℕ} {type : ShmType} {a : Args} {c c' : Conf}
    (h : shmGenericDirective page type a c = .ok c') :
    a.name ≠ [] ∧ ∃ size, parseSize a.size = some size ∧ page ∣ size ∧ 3 * page ≤ size ∧
      lookupIndex c.shms a.name = none ∧ addMapping c ⟨type, a.eviction, a.name⟩ size = .ok c' := by
  rw [shmGenericDirective] at h
  split at h
  · exact absurd h (by simp)
  · rename_i hname
    cases hsize : validateShmSize page a.size with
    | error e => simp [hsize] at h
    | ok size =>
      obtain ⟨hparse, halign, hmin⟩ := validateShmSize_ok hsize
      cases hpolicy : parseEviction a.arg3 with
      | error e => simp [hsize, hpolicy] at h
      | ok eviction =>
        have heviction : a.eviction = eviction := by rw [Args.eviction, hpolicy]
        cases hfind : lookupIndex c.shms a.name with
        | some j => simp [hsize, hpolicy, hfind] at h
        | none =>
          simp only [hsize, hpolicy, hfind, ← heviction] at h
          exact ⟨hname, size, hparse, halign, hmin, rfl, h⟩

/-- The zones of this module are the ones that were asked for. -/
theorem Built.of_mine {page : ℕ} {others : List Zone} {ds : List Directive} {c : Conf}
    (hb : Built page others ds c) (hothers : ∀ z ∈ others, z.tag ≠ .wasmx) {z : Zone}
    (hz : z ∈ c.zones) (hmine : z.tag = .wasmx) : z ∈ asked ds := by
  rw [hb.zones] at hz
  rcases List.mem_append.mp hz with hz | hz
  · exact absurd hmine (hothers z hz)
  · exact hz

theorem Built.sizes {page : ℕ} (hpage : 0 < page) {others : List Zone} {ds : List Directive}
    {c : Conf} (hb : Built page others ds c) (hothers : ∀ z ∈ others, z.tag ≠ .wasmx) :
    ∀ z ∈ c.zones, z.tag = .wasmx → z.size ≠ 0 := by
  intro z hz hmine
  have hmin := (hb.checked z (hb.of_mine hothers hz hmine)).min
  omega

theorem Built.add {page : ℕ} (hpage : 0 < page) {others : List Zone} {ds : List Directive}
    {c c' : Conf} (hb : Built page others ds c) (hothers : ∀ z ∈ others, z.tag ≠ .wasmx)
    {type : ShmType} {a : Args} {d : Directive} (hd : d.zone = some (a.zone type))
    (h : shmGenericDirective page type a c = .ok c') : Built page others (ds ++ [d]) c' := by
  obtain ⟨hname, size, hparse, halign, hmin, hfind, hadd⟩ := generic_ok h
  have hfresh : a.name ∉ (asked ds).map fun z => z.name := by
    rw [← mappingsFrom_names others.length, ← hb.shms]
    exact lookupIndex_none hfind
  have hnew : ∀ z ∈ c.zones, z.name ≠ a.name := by
    by_contra hex
    have htaken : ∃ z ∈ c.zones, z.name = a.name := by simpa using hex
    rw [addMapping] at hadd
    cases hshared : sharedMemoryAdd c.zones a.name size with
    | error e => simp [hshared] at hadd
    | ok r =>
      obtain ⟨z, hz, hzname, hmine, _⟩ :=
        sharedMemoryAdd_taken (hb.sizes hpage hothers) htaken hshared
      have hasked := hb.of_mine hothers (List.mem_of_getElem? hz) hmine
      exact hfresh (List.mem_map.mpr ⟨z, hasked, hzname⟩)
  rw [addMapping] at hadd
  simp only [sharedMemoryAdd_new size hnew, setData_last, Except.ok.injEq] at hadd
  have hzone : a.zone type = ⟨a.name, size, .wasmx, some ⟨type, a.eviction, a.name⟩⟩ := by
    rw [Args.zone, hparse]
    rfl
  have hasked : asked (ds ++ [d]) = asked ds ++ [a.zone type] := by
    rw [asked_snoc, hd]
    rfl
  subst hadd
  constructor
  · rw [hasked, hzone, ← List.append_assoc, ← hb.zones]
  · rw [hasked, mappingsFrom_snoc, ← hb.shms, hb.zones, List.length_append]
    rfl
  · rw [hasked, List.map_append, List.nodup_append]
    refine ⟨hb.names, List.nodup_singleton _, ?_⟩
    intro n hn m hm heq
    have hmname : m = a.name := by simpa [Args.zone] using hm
    exact hfresh (hmname ▸ heq ▸ hn)
  · intro z hz
    rw [hasked] at hz
    rcases List.mem_append.mp hz with hz | hz
    · exact hb.checked z hz
    · rw [List.mem_singleton.mp hz, hzone]
      exact ⟨hname, halign, hmin⟩
  · intro z hz
    rw [hasked] at hz
    rcases List.mem_append.mp hz with hz | hz
    · exact hb.mine z hz
    · rw [List.mem_singleton.mp hz]
      rfl

theorem Built.step {page : ℕ} (hpage : 0 < page) {others : List Zone} {ds : List Directive}
    {c c' : Conf} (hb : Built page others ds c) (hothers : ∀ z ∈ others, z.tag ≠ .wasmx)
    (d : Directive) (h : onDirective page c d = .ok c') : Built page others (ds ++ [d]) c' := by
  cases d with
  | shmKv a => exact hb.add hpage hothers rfl h
  | shmQueue a =>
    simp only [onDirective, shmQueueDirective] at h
    split at h
    · exact absurd h (by simp)
    · exact hb.add hpage hothers rfl h
  | slabSize value =>
    simp only [onDirective, metricsSlabSizeDirective] at h
    have hasked : asked (ds ++ [.slabSize value]) = asked ds := by
      rw [asked_snoc]
      exact List.append_nil _
    split at h
    · exact absurd h (by simp)
    · split at h
      · exact absurd h (by simp)
      · rw [← Except.ok.inj h]
        constructor
        · rw [hasked]
          exact hb.zones
        · rw [hasked]
          exact hb.shms
        · rw [hasked]
          exact hb.names
        · rw [hasked]
          exact hb.checked
        · rw [hasked]
          exact hb.mine

theorem parseBlock_built {page : ℕ} (hpage : 0 < page) {others : List Zone}
    (hothers : ∀ z ∈ others, z.tag ≠ .wasmx) (ds : List Directive) :
    ∀ {done : List Directive} {c c' : Conf}, Built page others done c →
      parseBlock page c ds = .ok c' → Built page others (done ++ ds) c' := by
  induction ds with
  | nil =>
    intro done c c' hb h
    rw [List.append_nil, ← Except.ok.inj h]
    exact hb
  | cons d ds ih =>
    intro done c c' hb h
    rw [parseBlock] at h
    cases hd : onDirective page c d with
    | error e => simp [hd] at h
    | ok next =>
      simp only [hd] at h
      have hall := ih (hb.step hpage hothers d hd) h
      rwa [List.append_assoc, List.singleton_append] at hall

theorem built_nil (page : ℕ) (others : List Zone) : Built page others [] ⟨[], others, none⟩ where
  zones := (List.append_nil _).symm
  shms := rfl
  names := List.nodup_nil
  checked := fun _ h => absurd h List.not_mem_nil
  mine := fun _ h => absurd h List.not_mem_nil

/-! ### The end of the block -/

/-- Where the metrics go: to the zone that was asked for under their name, or a new one. -/
def metricsZone (others zones : List Zone) : ℕ :=
  others.length + zones.findIdx fun z => z.name == metricsName

/-- A zone of a directive at the end, with the shm of the metrics in one of their name. -/
def Zone.atEnd (z : Zone) : Zone :=
  if z.name = metricsName then { z with data := some metricsShm } else z

/-- What the directives asked for is there, but for a zone under the name of the metrics. -/
structure Configured (page : ℕ) (others zones : List Zone) (c : Conf) : Prop where
  names : (zones.map fun z => z.name).Nodup
  checked : ∀ z ∈ zones, Checked page z
  lookup : ∀ (j : ℕ) (z : Zone), zones[j]? = some z → lookupIndex c.shms z.name = some j
  shms : c.shms = mappingsFrom others.length zones ++ [⟨metricsName, metricsZone others zones⟩]
  zone : ∀ (j : ℕ) (z : Zone), zones[j]? = some z →
    c.zones[others.length + j]? = some z.atEnd
  metrics : ∃ z, c.zones[metricsZone others zones]? = some z ∧ z.data = some metricsShm
  kept : ∀ (i : ℕ) (z : Zone), others[i]? = some z → c.zones[i]? = some z

theorem names_inj {zones : List Zone} (hnames : (zones.map fun z => z.name).Nodup) {j k : ℕ}
    {x y : Zone} (hx : zones[j]? = some x) (hy : zones[k]? = some y) (heq : x.name = y.name) :
    j = k := by
  obtain ⟨hj, hxj⟩ := List.getElem?_eq_some_iff.mp hx
  obtain ⟨hk, hyk⟩ := List.getElem?_eq_some_iff.mp hy
  have hjm : j < (zones.map fun z => z.name).length := by simpa using hj
  have hkm : k < (zones.map fun z => z.name).length := by simpa using hk
  have hmap : (zones.map fun z => z.name)[j] = (zones.map fun z => z.name)[k] := by
    rw [List.getElem_map, List.getElem_map, hxj, hyk, heq]
  exact hnames.getElem_inj_iff.mp hmap

theorem mappingsFrom_get (n : ℕ) {zones : List Zone} {j : ℕ} {z : Zone} (hz : zones[j]? = some z) :
    (mappingsFrom n zones)[j]? = some ⟨z.name, n + j⟩ := by
  rw [mappingsFrom, List.getElem?_mapIdx, hz]
  rfl

theorem lookupIndex_mappings (n : ℕ) {zones : List Zone} (rest : List Mapping)
    (hnames : (zones.map fun z => z.name).Nodup) {j : ℕ} {z : Zone} (hz : zones[j]? = some z) :
    lookupIndex (mappingsFrom n zones ++ rest) z.name = some j := by
  have hget := mappingsFrom_get n hz
  obtain ⟨hj, hat⟩ := List.getElem?_eq_some_iff.mp hget
  apply List.findIdx?_eq_some_iff_getElem.mpr
  refine ⟨by rw [List.length_append]; omega, ?_, fun k hk => ?_⟩
  · rw [List.getElem_append_left hj, hat]
    simp
  · have hkz : k < zones.length := by
      have hlen : (mappingsFrom n zones).length = zones.length := by simp [mappingsFrom]
      omega
    have hother := mappingsFrom_get n (List.getElem?_eq_getElem hkz)
    obtain ⟨hklt, hkat⟩ := List.getElem?_eq_some_iff.mp hother
    rw [List.getElem_append_left hklt, hkat]
    have hne : zones[k].name ≠ z.name := by
      intro heq
      have hkj := names_inj hnames (List.getElem?_eq_getElem hkz) hz heq
      omega
    simpa using hne

theorem findIdx_at {zones : List Zone} (hnames : (zones.map fun z => z.name).Nodup) {j : ℕ}
    {z : Zone} (hz : zones[j]? = some z) (hname : z.name = metricsName) :
    (zones.findIdx fun z => z.name == metricsName) = j := by
  obtain ⟨hj, hat⟩ := List.getElem?_eq_some_iff.mp hz
  have hlt : (zones.findIdx fun z => z.name == metricsName) < zones.length :=
    List.findIdx_lt_length_of_exists ⟨z, List.mem_of_getElem? hz, by simp [hname]⟩
  have hfound := List.findIdx_getElem (w := hlt)
  exact names_inj hnames (List.getElem?_eq_getElem hlt) hz (by rw [hname]; simpa using hfound)

/-- Without a zone of their name the metrics get a new one. -/
theorem metricsInitConf_own {page : ℕ} (hpage : 0 < page) {others : List Zone}
    {ds : List Directive} {c c' : Conf} (hb : Built page others ds c)
    (hothers : ∀ z ∈ others, z.tag ≠ .wasmx) (hnone : ∀ z ∈ asked ds, z.name ≠ metricsName)
    (h : metricsInitConf c = .ok c') : Configured page others (asked ds) c' := by
  have hnew : ∀ z ∈ c.zones, z.name ≠ metricsShm.name := by
    by_contra hex
    have htaken : ∃ z ∈ c.zones, z.name = metricsShm.name := by simpa using hex
    rw [metricsInitConf, addMapping] at h
    cases hshared : sharedMemoryAdd c.zones metricsShm.name (c.slabSize.getD (1024 * 1024 * 5)) with
    | error e => simp [hshared] at h
    | ok r =>
      obtain ⟨z, hz, hzname, hmine, _⟩ :=
        sharedMemoryAdd_taken (hb.sizes hpage hothers) htaken hshared
      exact hnone z (hb.of_mine hothers (List.mem_of_getElem? hz) hmine) hzname
  rw [metricsInitConf, addMapping] at h
  simp only [sharedMemoryAdd_new _ hnew, setData_last, Except.ok.injEq] at h
  have hidx : metricsZone others (asked ds) = c.zones.length := by
    have hlen : ((asked ds).findIdx fun z => z.name == metricsName) = (asked ds).length := by
      apply List.findIdx_eq_length.mpr
      intro z hz
      simpa using hnone z hz
    rw [metricsZone, hlen, hb.zones, List.length_append]
  have hshms : c'.shms = mappingsFrom others.length (asked ds) ++
      [⟨metricsName, metricsZone others (asked ds)⟩] := by
    rw [← h, hidx, ← hb.shms]
    rfl
  refine ⟨hb.names, hb.checked, fun j z hz => ?_, hshms, fun j z hz => ?_, ?_, ?_⟩
  · rw [hshms]
    exact lookupIndex_mappings _ _ hb.names hz
  · have hlt := (List.getElem?_eq_some_iff.mp hz).1
    rw [← h, hb.zones, List.append_assoc, List.getElem?_append_right (Nat.le_add_right _ _),
      Nat.add_sub_cancel_left, List.getElem?_append_left hlt, hz, Zone.atEnd,
      if_neg (hnone z (List.mem_of_getElem? hz))]
  · refine ⟨⟨metricsName, c.slabSize.getD (1024 * 1024 * 5), .wasmx, some metricsShm⟩, ?_, rfl⟩
    rw [← h, hidx, List.getElem?_append_right (Nat.le_refl _), Nat.sub_self]
    rfl
  · intro i z hz
    have hlt := (List.getElem?_eq_some_iff.mp hz).1
    rw [← h, hb.zones, List.append_assoc, List.getElem?_append_left hlt, hz]

/-- A zone of their name becomes that of the metrics. -/
theorem metricsInitConf_shared {page : ℕ} (hpage : 0 < page) {others : List Zone}
    {ds : List Directive} {c c' : Conf} (hb : Built page others ds c)
    (hothers : ∀ z ∈ others, z.tag ≠ .wasmx) {x : Zone} (hx : x ∈ asked ds)
    (hname : x.name = metricsName) (h : metricsInitConf c = .ok c') :
    Configured page others (asked ds) c' := by
  have htaken : ∃ z ∈ c.zones, z.name = metricsShm.name := by
    refine ⟨x, ?_, hname⟩
    rw [hb.zones]
    exact List.mem_append_right _ hx
  rw [metricsInitConf, addMapping] at h
  cases hshared : sharedMemoryAdd c.zones metricsShm.name (c.slabSize.getD (1024 * 1024 * 5)) with
  | error e => simp [hshared] at h
  | ok r =>
    obtain ⟨zones, i⟩ := r
    obtain ⟨y, hy, hyname, hmine, hsame⟩ :=
      sharedMemoryAdd_taken (hb.sizes hpage hothers) htaken hshared
    subst hsame
    simp only [hshared, Except.ok.injEq] at h
    -- the place is behind the zones of other modules
    have hplace : ∃ k, i = others.length + k ∧ (asked ds)[k]? = some y := by
      rw [hb.zones] at hy
      by_cases hlt : i < others.length
      · rw [List.getElem?_append_left hlt] at hy
        exact absurd hmine (hothers y (List.mem_of_getElem? hy))
      · rw [List.getElem?_append_right (by omega)] at hy
        exact ⟨i - others.length, by omega, hy⟩
    obtain ⟨k, hk, hyk⟩ := hplace
    have hidx : metricsZone others (asked ds) = i := by
      rw [metricsZone, findIdx_at hb.names hyk hyname, hk]
    have hshms : c'.shms = mappingsFrom others.length (asked ds) ++
        [⟨metricsName, metricsZone others (asked ds)⟩] := by
      rw [← h, hidx, ← hb.shms]
      rfl
    have hzones : c'.zones = setData c.zones i metricsShm := by rw [← h]
    refine ⟨hb.names, hb.checked, fun j z hz => ?_, hshms, fun j z hz => ?_, ?_, ?_⟩
    · rw [hshms]
      exact lookupIndex_mappings _ _ hb.names hz
    · have hget : c.zones[others.length + j]? = some z := by
        rw [hb.zones, List.getElem?_append_right (Nat.le_add_right _ _), Nat.add_sub_cancel_left,
          hz]
      rw [hzones, setData, List.getElem?_modify, hget, Zone.atEnd]
      by_cases hzname : z.name = metricsName
      · have hjk := names_inj hb.names hz hyk (hzname.trans hyname.symm)
        rw [if_pos hzname, hk, hjk]
        simp
      · have hne : i ≠ others.length + j := by
          intro heq
          have hjk : j = k := by omega
          rw [hjk, hyk] at hz
          exact hzname (Option.some.inj hz ▸ hyname)
        rw [if_neg hzname]
        simp [hne]
    · refine ⟨{ y with data := some metricsShm }, ?_, rfl⟩
      rw [hzones, hidx, setData, List.getElem?_modify, hy]
      simp
    · intro j z hz
      have hlt := (List.getElem?_eq_some_iff.mp hz).1
      have hget : c.zones[j]? = some z := by rw [hb.zones, List.getElem?_append_left hlt, hz]
      have hne : i ≠ j := by omega
      rw [hzones, setData, List.getElem?_modify, hget]
      simp [hne]

/-- After a block that is accepted each zone is found under its name, with the type, policy and
size of its directive; the metrics share the zone of a directive that takes their name. -/
theorem configured_zones (page : ℕ) (hpage : 0 < page) (others : List Zone)
    (hothers : ∀ z ∈ others, z.tag ≠ .wasmx) (ds : List Directive) (c : Conf)
    (h : wasmBlock page others ds = .ok c) : Configured page others (asked ds) c := by
  rw [wasmBlock] at h
  cases hblock : parseBlock page ⟨[], others, none⟩ ds with
  | error e => simp [hblock] at h
  | ok b =>
    simp only [hblock] at h
    have hb := parseBlock_built hpage hothers ds (built_nil page others) hblock
    rw [List.nil_append] at hb
    by_cases hnone : ∀ z ∈ asked ds, z.name ≠ metricsName
    · exact metricsInitConf_own hpage hb hothers hnone h
    · have hex : ∃ z ∈ asked ds, z.name = metricsName := by simpa using hnone
      obtain ⟨x, hx, hname⟩ := hex
      exact metricsInitConf_shared hpage hb hothers hx hname h

/-- A queue, and a key/value store under the name of the metrics with the size of theirs. -/
def sharedBlock : List Directive :=
  [.shmQueue ⟨ascii "q", ascii "16k", []⟩, .shmKv ⟨metricsName, ascii "5m", [ascii "eviction=lru"]⟩]

/-- The last two of three mappings are one zone, which holds the metrics. -/
theorem configured_zones_shared :
    ∃ c, wasmBlock 4096 [⟨ascii "limit", 8192, .other 1, none⟩] sharedBlock = .ok c ∧
      Configured 4096 [⟨ascii "limit", 8192, .other 1, none⟩] (asked sharedBlock) c ∧
      c.shms.map (fun m => m.zone) = [1, 2, 2] := by
  refine ⟨⟨[⟨ascii "q", 1⟩, ⟨metricsName, 2⟩, ⟨metricsName, 2⟩],
    [⟨ascii "limit", 8192, .other 1, none⟩,
      ⟨ascii "q", 16384, .wasmx, some ⟨.queue, .slru, ascii "q"⟩⟩,
      ⟨metricsName, 5242880, .wasmx, some metricsShm⟩], none⟩, by decide, ?_, rfl⟩
  exact configured_zones 4096 (by decide) [⟨ascii "limit", 8192, .other 1, none⟩] (by simp)
    sharedBlock _ (by decide)

end NgxWasm.Shm.ZoneConf
