import Mathlib.Logic.Function.Basic
import Mathlib.Data.List.Range
import Mathlib.Data.Int.Basic
import MarbleModules.Runs

/-! The software clock manager of the multimedia resource manager: client table,
peak-current check, throttling and the three client calls. Values of type `u32` are
naturals below 2^32, and sums and differences of them wrap explicitly. -/
namespace MarbleModules
namespace MmrmClock

/-- `MMRM_VDD_LEVEL_MAX`; the levels are 0 (LOW_SVS) to 4 (TURBO). -/
def vddLevelMax : ℕ := 5

def einval : ℤ := 22
def enomem : ℤ := 12

/-- Reduction to a `u32`. -/
def wrap (n : ℕ) : ℕ := n % 4294967296

/-- `a - b` on `u32`; an `int` difference is kept as the same 32 bits. -/
def wrapSub (a b : ℕ) : ℕ := wrap (a + (4294967296 - wrap b))

/-- The 32 bits read as an `int` are at most zero. -/
def signedNonpos (n : ℕ) : Bool := decide (n = 0) || decide (2147483648 ≤ n)

/-- `enum mmrm_client_priority`; `none` is the cleared value 0. -/
inductive Priority
  | none | high | low
  deriving DecidableEq

/-- `struct mmrm_sw_clk_client_tbl_entry`. `clk` says that the clock pointer is neither
null nor an error, `client` that the entry is registered. -/
structure ClkEntry where
  clk : Bool
  pri : Priority
  clkSrcId : ℕ
  maxNumHwBlocks : ℕ
  freq : ℕ → ℕ
  currentMa : ℕ → ℕ → ℕ
  client : Bool
  clkRate : ℕ
  vddLevel : ℕ
  reserve : Bool
  refCount : ℕ
  numHwBlocks : ℕ

/-- `struct mmrm_sw_throttled_clients_data` -/
structure ThrottledClient where
  tableId : ℕ
  deltaCuMa : ℕ
  prevVddLevel : ℕ
  deriving DecidableEq

/-- `struct mmrm_sw_peak_current_data` -/
structure PeakCurrentData where
  threshold : ℕ
  aggregVal : ℕ
  aggregLevel : ℕ
  deriving DecidableEq

/-- `struct mmrm_sw_clk_mgr_info` with the two module parameters. `throttleClientsInfo`
lists the table indices of the clients that may be throttled; `vddCorner` is the
regulator corner of each level. -/
structure SwInfo where
  clkClientTbl : ℕ → ClkEntry
  totClkClients : ℕ
  enabledClkClients : ℕ
  throttleClientsInfo : List ℕ
  peakCurData : PeakCurrentData
  throttledClients : List ThrottledClient
  vddCorner : ℕ → ℤ
  enableThrottleFeature : Bool
  allowMultipleRegister : Bool

def SwInfo.setEntry (s : SwInfo) (c : ℕ) (e : ClkEntry) : SwInfo :=
  { s with clkClientTbl := Function.update s.clkClientTbl c e }

/-- What the clock framework, the notifier and the allocator answer during one call. -/
structure Env where
  voltageCorner : ℤ
  clkSetRate : ℤ
  notifier : ℤ
  throttleSetRate : ℤ
  alloc : Bool

/-- `mmrm_sw_get_req_level`; `none` stands for the error returns. -/
def mmrmSwGetReqLevel (s : SwInfo) (corner : ℤ) : Option ℕ :=
  if corner < 0 ∨ s.vddCorner 4 < corner then none
  else if corner < s.vddCorner 0 then some 0
  else (List.range vddLevelMax).find? fun level => corner = s.vddCorner level

/-- An active client other than the one with clock source `srcId`: the entries the loop
of `mmrm_sw_check_req_level` does not skip. -/
def otherActive (srcId : ℕ) (e : ClkEntry) : Bool :=
  e.clk && decide (e.clkRate ≠ 0) && decide (e.clkSrcId ≠ srcId)

/-- The loop of `mmrm_sw_check_req_level` over the entries from `c` on: `none` when it
breaks at a client on the aggregated level, else the level of `next_max_entry`. -/
def nextMaxLoop (s : SwInfo) (srcId reqLevel : ℕ) : ℕ → ℕ → Option ℕ → Option (Option ℕ)
  | _, 0, acc => some acc
  | c, n+1, acc =>
    let e := s.clkClientTbl c
    if otherActive srcId e then
      if e.vddLevel = s.peakCurData.aggregLevel then none
      else
        nextMaxLoop s srcId reqLevel (c+1) n
          (if e.vddLevel < s.peakCurData.aggregLevel ∧ reqLevel < e.vddLevel
            then some e.vddLevel else acc)
    else nextMaxLoop s srcId reqLevel (c+1) n acc

/-- `mmrm_sw_check_req_level`: the adjusted level, `none` for an invalid request. -/
def mmrmSwCheckReqLevel (s : SwInfo) (srcId reqLevel : ℕ) : Option ℕ :=
  if vddLevelMax ≤ reqLevel then none
  else if reqLevel < s.peakCurData.aggregLevel then
    match nextMaxLoop s srcId reqLevel 0 s.totClkClients none with
    | none => some s.peakCurData.aggregLevel
    | some none => some reqLevel
    | some (some level) => some (if reqLevel < level then level else reqLevel)
  else some reqLevel

/-- What an entry adds to the aggregate at a level. -/
def contribution (e : ClkEntry) (level : ℕ) : ℕ :=
  wrap (e.currentMa e.vddLevel level * e.numHwBlocks)

/-- `mmrm_sw_calculate_total_current`, leaving out entry `skip`. -/
def mmrmSwCalculateTotalCurrent (s : SwInfo) (reqLevel skip : ℕ) : Option ℕ :=
  if vddLevelMax ≤ reqLevel then none
  else
    some ((List.range s.totClkClients).foldl (fun sum c =>
      let e := s.clkClientTbl c
      if e.clk = false ∨ e.clkRate = 0 ∨ c = skip then sum
      else wrap (sum + contribution e reqLevel)) 0)

/-- Current an entry draws now and at the lowest level, both at the aggregated level. -/
def nowCur (s : SwInfo) (e : ClkEntry) : ℕ := e.currentMa e.vddLevel s.peakCurData.aggregLevel
def minCur (s : SwInfo) (e : ClkEntry) : ℕ := e.currentMa 0 s.peakCurData.aggregLevel

/-- The search of `mmrm_sw_throttle_low_priority_client`: position and table index of the
first client whose saving exceeds `delta`, compared as unsigned numbers. -/
def findThrottleClient (s : SwInfo) (delta : ℕ) : ℕ → List ℕ → Option (ℕ × ℕ)
  | _, [] => none
  | i, c::cs =>
    let e := s.clkClientTbl c
    if minCur s e < nowCur s e ∧ delta < nowCur s e - minCur s e then some (i,c)
    else findThrottleClient s delta (i+1) cs

/-- `mmrm_sw_throttle_low_priority_client`: new state, return code and `delta_cur`. -/
def mmrmSwThrottleLowPriorityClient (s : SwInfo) (env : Env) (delta : ℕ) : SwInfo × ℤ × ℕ :=
  match findThrottleClient s delta 0 s.throttleClientsInfo with
  | none => (s,0,delta)
  | some (i,c) =>
    let e := s.clkClientTbl c
    if env.notifier ≠ 0 then (s,-einval,delta)
    else if e.reserve = false ∧ env.throttleSetRate ≠ 0 then (s,-einval,delta)
    else
      let saved := nowCur s e - minCur s e
      if env.alloc = false then (s,-enomem,wrapSub delta saved)
      else
        ({ s.setEntry c { e with clkRate := e.freq 0, vddLevel := 0, reserve := false } with
            throttledClients := s.throttledClients ++ [⟨i,saved,e.vddLevel⟩] },
          0,wrapSub delta saved)

/-- `mmrm_reinstate_throttled_client`: the clients that fit again are notified and leave
the list; their table entries are not changed here. -/
def mmrmReinstateThrottledClient (s : SwInfo) : SwInfo :=
  { s with
    throttledClients := s.throttledClients.filter fun t =>
      ¬ wrap (s.peakCurData.aggregVal + t.deltaCuMa) ≤ s.peakCurData.threshold }

def SwInfo.setPeak (s : SwInfo) (val level : ℕ) : SwInfo :=
  { s with peakCurData := { s.peakCurData with aggregVal := val, aggregLevel := level } }

/-- `new_cur` of `mmrm_sw_check_peak_current`; `clk_val` arrives there as a `u32`. -/
def newCur (e : ClkEntry) (reqLevel adjLevel clkVal numHwBlocks : ℕ) : ℕ :=
  if wrap clkVal = 0 then 0 else wrap (e.currentMa reqLevel adjLevel * numHwBlocks)

/-- `old_cur` of `mmrm_sw_check_peak_current` -/
def oldCur (s : SwInfo) (e : ClkEntry) : ℕ :=
  if e.clkRate = 0 then 0 else contribution e s.peakCurData.aggregLevel

/-- `adj_level`, `peak_cur` and `delta_cur` of `mmrm_sw_check_peak_current` before its
comparisons; `none` for an invalid level. -/
def peakRequest (s : SwInfo) (c reqLevel clkVal numHwBlocks : ℕ) : Option (ℕ × ℕ × ℕ) :=
  let e := s.clkClientTbl c
  match mmrmSwCheckReqLevel s e.clkSrcId reqLevel with
  | none => none
  | some adj =>
    let new := newCur e reqLevel adj clkVal numHwBlocks
    if adj ≠ s.peakCurData.aggregLevel then
      match mmrmSwCalculateTotalCurrent s adj c with
      | none => none
      | some total => some (adj,wrap (total + new),0)
    else some (adj,s.peakCurData.aggregVal,wrapSub new (oldCur s e))

/-- `mmrm_sw_check_peak_current` -/
def mmrmSwCheckPeakCurrent (s : SwInfo) (env : Env) (c reqLevel clkVal numHwBlocks : ℕ) :
    SwInfo × ℤ :=
  match peakRequest s c reqLevel clkVal numHwBlocks with
  | none => (s,-einval)
  | some (adj,peak,delta) =>
    if signedNonpos (wrap (peak + delta)) then (s.setPeak 0 adj,0)
    else if s.peakCurData.threshold ≤ wrap (peak + delta) then
      if (s.clkClientTbl c).pri = .high ∧ s.enableThrottleFeature = true then
        match mmrmSwThrottleLowPriorityClient s env delta with
        | (s',rc,delta') =>
          if rc ≠ 0 then (s',rc)
          -- also taken when the search found nobody and `delta` is unchanged
          else (mmrmReinstateThrottledClient (s'.setPeak (wrap (peak + delta')) adj),0)
      else (s,-einval)
    else (mmrmReinstateThrottledClient (s.setPeak (wrap (peak + delta)) adj),0)

/-- Arguments of `mmrm_sw_clk_client_setval`; `clkVal` is an `unsigned long`. -/
structure SetvalReq where
  uid : ℕ
  clkVal : ℕ
  numHwBlocks : ℕ
  reserve : Bool

/-- Where `mmrm_sw_clk_client_setval` goes after validating its arguments. -/
inductive SetvalPath
  | error
  | unchanged
  | reserveOnly
  | setRateOnly
  | checkPeak (reqLevel : ℕ)
  deriving DecidableEq

def setvalPath (s : SwInfo) (env : Env) (r : SetvalReq) : SetvalPath :=
  let e := s.clkClientTbl r.uid
  if s.totClkClients ≤ r.uid then .error
  else if e.clk = false then .error
  else if e.clkRate = r.clkVal ∧ e.numHwBlocks = r.numHwBlocks then
    if e.reserve = r.reserve then .unchanged
    else if r.reserve then .reserveOnly
    else .setRateOnly
  else if r.clkVal ≠ 0 then
    match mmrmSwGetReqLevel s env.voltageCorner with
    | none => .error
    | some level =>
      if vddLevelMax ≤ level then .error
      else if 1 ≤ r.numHwBlocks ∧ r.numHwBlocks ≤ e.maxNumHwBlocks then .checkPeak level
      else .error
  else .checkPeak 0

/-- The final `clk_set_rate` of `mmrm_sw_clk_client_setval` -/
def setClkRate (env : Env) : ℤ := if env.clkSetRate ≠ 0 then -einval else 0

/-- `mmrm_sw_clk_client_setval` -/
def mmrmSwClkClientSetval (s : SwInfo) (env : Env) (r : SetvalReq) : SwInfo × ℤ :=
  let e := s.clkClientTbl r.uid
  match setvalPath s env r with
  | .error => (s,-einval)
  | .unchanged => (s,0)
  | .reserveOnly => (s.setEntry r.uid { e with reserve := true },0)
  | .setRateOnly => (s.setEntry r.uid { e with reserve := false },setClkRate env)
  | .checkPeak level =>
    match mmrmSwCheckPeakCurrent s env r.uid level r.clkVal r.numHwBlocks with
    | (s',rc) =>
      if rc ≠ 0 then (s',rc)
      else
        (s'.setEntry r.uid
          { s'.clkClientTbl r.uid with
            clkRate := r.clkVal, vddLevel := level, reserve := r.reserve,
            numHwBlocks := r.numHwBlocks },
          if r.reserve then 0 else setClkRate env)

/-- Arguments of `mmrm_sw_clk_client_register`. `freq` and `currentMa` are what
`mmrm_sw_update_freq` and `mmrm_sw_update_curr` compute for the entry, `updated` their
success. -/
structure RegisterReq where
  clkSrcId : ℕ
  clk : Bool
  priority : Priority
  freq : ℕ → ℕ
  currentMa : ℕ → ℕ → ℕ
  alloc : Bool
  updated : Bool

/-- `mmrm_sw_clk_client_register`; the second result is the client's uid. -/
def mmrmSwClkClientRegister (s : SwInfo) (r : RegisterReq) : SwInfo × Option ℕ :=
  if s.totClkClients = s.enabledClkClients then (s,none)
  else
    match (List.range s.totClkClients).find?
        fun c => r.clkSrcId = (s.clkClientTbl c).clkSrcId with
    | none => (s,none)
    | some c =>
      let e := s.clkClientTbl c
      if e.client then
        if s.allowMultipleRegister then
          (s.setEntry c { e with refCount := wrap (e.refCount+1) },some c)
        else (s,none)
      else if r.alloc = false then
        (s.setEntry c { e with client := false, clk := false, pri := .none },none)
      else if r.updated = false then
        (s.setEntry c
          { e with client := false, clk := false, pri := .none, refCount := 1,
                   freq := r.freq, currentMa := r.currentMa },none)
      else
        (s.setEntry c
          { e with client := true, clk := r.clk, pri := r.priority, refCount := 1,
                   freq := r.freq, currentMa := r.currentMa },some c)

/-- `mmrm_sw_clk_client_deregister` -/
def mmrmSwClkClientDeregister (s : SwInfo) (uid : ℕ) : SwInfo × ℤ :=
  if s.totClkClients ≤ uid then (s,-einval)
  else
    let e := s.clkClientTbl uid
    if e.refCount - 1 = 0 then
      -- the peak-current data is not adjusted
      (s.setEntry uid
        { e with refCount := 0, vddLevel := 0, clkRate := 0, client := false,
                 clk := false, pri := .none },0)
    else (s.setEntry uid { e with refCount := e.refCount-1 },0)

/-- The client calls, and writes to the two module parameters. -/
inductive Op
  | register (r : RegisterReq)
  | setval (env : Env) (r : SetvalReq)
  | deregister (uid : ℕ)
  | setThrottleFeature (on : Bool)
  | setMultipleRegister (on : Bool)

def step (s : SwInfo) : Op → SwInfo
  | .register r => (mmrmSwClkClientRegister s r).1
  | .setval env r => (mmrmSwClkClientSetval s env r).1
  | .deregister uid => (mmrmSwClkClientDeregister s uid).1
  | .setThrottleFeature on => { s with enableThrottleFeature := on }
  | .setMultipleRegister on => { s with allowMultipleRegister := on }

/-- The manager as `mmrm_init_sw_clk_mgr` leaves it: a zeroed table apart from the data
prepared from the device tree, and no aggregated current. -/
structure Fresh (s : SwInfo) : Prop where
  clk : ∀ c, (s.clkClientTbl c).clk = false
  client : ∀ c, (s.clkClientTbl c).client = false
  clkRate : ∀ c, (s.clkClientTbl c).clkRate = 0
  vddLevel : ∀ c, (s.clkClientTbl c).vddLevel = 0
  enabled : s.enabledClkClients = 0
  aggregVal : s.peakCurData.aggregVal = 0
  aggregLevel : s.peakCurData.aggregLevel = 0
  throttled : s.throttledClients = []

end MmrmClock
end MarbleModules
