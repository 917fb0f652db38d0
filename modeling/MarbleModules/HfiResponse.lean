import MarbleModules.LeBytes

/-! The response buffer of the video firmware: the validation of a message before it is
handled, and the places of the message that the handlers look at afterwards. -/
namespace MarbleModules
namespace HfiResponse

/-- `sizeof(struct hfi_header)` and `sizeof(struct hfi_packet)` -/
def headerSize : ℕ := 32
/-- `core->packet_size` -/
def packetSize : ℕ := 4096

/-- `core->response_packet` -/
structure ResponseBuffer where
  bytes : List UInt8
  len : bytes.length = packetSize

/-- The word at an offset; where the offset is outside, what it holds does not matter. -/
def u32At (mem : List UInt8) (o : ℕ) : ℕ := leVal ((mem.drop o).take 4)

/-- A read of a word, none when a byte of it lies outside -/
def readU32 (mem : List UInt8) (o : ℕ) : Option ℕ :=
  if o+4 ≤ mem.length then some (u32At mem o) else none

/-- How the validation ends; `fault` when it reads outside of the buffer. -/
inductive Verdict
  | accept | reject | fault
  deriving DecidableEq, Repr

/-- `validate_packet` -/
def validatePacket (mem : List UInt8) (pkt : ℕ) : Verdict :=
  if mem.length = 0 then .reject
  else if mem.length < pkt then .reject
  else
    match readU32 mem pkt with
    | none => .fault
    | some size =>
      if size = 0 then .reject
      else if size < headerSize then .reject
      else if mem.length < pkt+size then .reject
      else .accept

/-- The loop over the packets that are left -/
def validatePackets (mem : List UInt8) : ℕ → ℕ → Verdict
  | 0,_ => .accept
  | n+1,pkt =>
    match validatePacket mem pkt with
    | .accept => validatePackets mem n (pkt+u32At mem pkt)
    | v => v

/-- `validate_hdr_packet` -/
def validateHdrPacket (mem : List UInt8) : Verdict :=
  match readU32 mem 0 with
  | none => .fault
  | some size =>
    if size < headerSize+headerSize then .reject
    else
      match readU32 mem 28 with
      | none => .fault
      | some numPackets => validatePackets mem numPackets headerSize

def hdrSize (mem : List UInt8) : ℕ := u32At mem 0
def hdrSessionId (mem : List UInt8) : ℕ := u32At mem 4
def hdrNumPackets (mem : List UInt8) : ℕ := u32At mem 28

def pktSize (mem : List UInt8) (pkt : ℕ) : ℕ := u32At mem pkt
def pktType (mem : List UInt8) (pkt : ℕ) : ℕ := u32At mem (pkt+4)
def pktFlags (mem : List UInt8) (pkt : ℕ) : ℕ := u32At mem (pkt+8)
def pktPort (mem : List UInt8) (pkt : ℕ) : ℕ := u32At mem (pkt+16)

def hfiFwFlagsSystemError : ℕ := 8
def hfiPortBitstream : ℕ := 1
def hfiPortRaw : ℕ := 2
def hfiCmdBuffer : ℕ := 0x01000009
def hfiCmdSettingsChange : ℕ := 0x0100000C
def hfiBufFwFlagLast : ℕ := 0x10000000

/-- The ranges of `handle_system_response`, pass by pass: system errors, properties,
commands. -/
def systemRange : ℕ → ℕ × ℕ
  | 0 => (0x05000000,0x05FFFFFF)
  | 1 => (0x03000000,0x03FFFFFF)
  | _ => (0x01000000,0x01FFFFFF)

def isInRange (r : ℕ × ℕ) (v : ℕ) : Bool := r.1 < v && v < r.2

/-- A place of the message: its offset and its length. -/
abbrev Look := ℕ × ℕ

/-- One walk over `n` packets, each looked at with its payload, until one of them ends the
loop. -/
def walk (data : List UInt8) (exit : ℕ → Bool) : ℕ → ℕ → List Look × Bool
  | 0,_ => ([],false)
  | n+1,pkt =>
    if exit pkt then ([(pkt,pktSize data pkt)],true)
    else
      let r := walk data exit n (pkt+pktSize data pkt)
      ((pkt,pktSize data pkt)::r.1,r.2)

inductive Domain
  | encoder | decoder
  deriving DecidableEq

/-- The environment of a response: the instance that the session id names, whether the
deferred work can be queued, and which handlers fail, by pass and packet. -/
structure Env where
  inst : Option Domain
  queued : Bool
  failed : ℕ → ℕ → Bool

/-- A packet that ends `handle_system_response` in pass `i` -/
def systemExit (data : List UInt8) (failed : ℕ → ℕ → Bool) (i pkt : ℕ) : Bool :=
  pktFlags data pkt &&& hfiFwFlagsSystemError != 0 ||
    (isInRange (systemRange i) (pktType data pkt) && (failed i pkt || i == 0))

/-- `handle_system_response` -/
def handleSystemResponse (data : List UInt8) (failed : ℕ → ℕ → Bool) : List Look :=
  let pass := fun i => walk data (systemExit data failed i) (hdrNumPackets data) headerSize
  if (pass 0).2 then (pass 0).1
  else if (pass 1).2 then (pass 0).1 ++ (pass 1).1
  else (pass 0).1 ++ ((pass 1).1 ++ (pass 2).1)

/-- `vidc_port_from_hfi` gives the output port. -/
def isOutputPort : Domain → ℕ → Bool
  | .decoder,port => port == hfiPortRaw
  | .encoder,port => port == hfiPortBitstream

/-- The packets whose buffer flags the special search reads. -/
def isOutputBuffer (data : List UInt8) (d : Domain) (pkt : ℕ) : Bool :=
  pktType data pkt == hfiCmdBuffer && isOutputPort d (pktPort data pkt)

/-- Where `flags` of `struct hfi_buffer` lies behind the packet header -/
def bufferFlags (pkt : ℕ) : ℕ := pkt+headerSize+40

/-- `check_last_flag` -/
def checkLastFlag (data : List UInt8) (pkt : ℕ) : Bool :=
  u32At data (bufferFlags pkt) &&& hfiBufFwFlagLast != 0

/-- The search of `handle_session_response` ends at this packet. -/
def offloads (data : List UInt8) (d : Domain) (pkt : ℕ) : Bool :=
  if pktType data pkt = hfiCmdSettingsChange then
    pktPort data pkt == hfiPortBitstream || pktPort data pkt == hfiPortRaw
  else isOutputBuffer data d pkt && checkLastFlag data pkt

/-- What the search looks at for one packet -/
def searchLooks (data : List UInt8) (d : Domain) (look : Look) : List Look :=
  look::(if isOutputBuffer data d look.1 then [(bufferFlags look.1,4)] else [])

/-- `__handle_session_response`: four passes over all packets -/
def sessionPasses (data : List UInt8) : List Look :=
  (List.range 4).flatMap fun _ =>
    (walk data (fun _ => false) (hdrNumPackets data) headerSize).1

/-- `handle_session_response`, with the deferred work on its copy of `hdr->size` bytes -/
def handleSessionResponse (data : List UInt8) (d : Domain) (queued : Bool) : List Look :=
  let search := walk data (offloads data d) (hdrNumPackets data) headerSize
  search.1.flatMap (searchLooks data d) ++
    if search.2 then
      if queued then (0,hdrSize data)::sessionPasses (data.take (hdrSize data)) else []
    else sessionPasses data

/-- `handle_response`, after the validation -/
def handleResponse (data : List UInt8) (env : Env) : List Look :=
  if hdrSessionId data = 0 then handleSystemResponse data env.failed
  else
    match env.inst with
    | none => []
    | some d => handleSessionResponse data d env.queued

/-- Where packet `k` starts when each starts where the one before ends -/
def packetStart (data : List UInt8) : ℕ → ℕ
  | 0 => headerSize
  | k+1 => packetStart data k+pktSize data (packetStart data k)

/-- The validation covers the message: it stays inside the buffer, and what it accepts is
a message that lies in the buffer, whose packets lie in the message, and of which nothing
outside is looked at. -/
def Covers (mem : List UInt8) (env : Env) : Prop :=
  validateHdrPacket mem ≠ .fault ∧
    (validateHdrPacket mem = .accept →
      hdrSize mem ≤ mem.length ∧
      (∀ k < hdrNumPackets mem,
        packetStart mem k+pktSize mem (packetStart mem k) ≤ hdrSize mem) ∧
      ∀ look ∈ handleResponse mem env, look.1+look.2 ≤ hdrSize mem)

/-- The packet at this offset passes its check. -/
def Valid (mem : List UInt8) (pkt : ℕ) : Prop :=
  pkt+4 ≤ mem.length ∧ headerSize ≤ pktSize mem pkt ∧ pkt+pktSize mem pkt ≤ mem.length

/-- Every announced packet that follows valid ones has room for its size word; and when all
of them are valid, they end within `hdr->size`, which is within the buffer, and the flags
of every output buffer that the search comes to do so too. -/
structure WellSized (mem : List UInt8) (env : Env) : Prop where
  room : ∀ k < hdrNumPackets mem, (∀ j < k, Valid mem (packetStart mem j)) →
    packetStart mem k+4 ≤ mem.length
  total : (∀ k < hdrNumPackets mem, Valid mem (packetStart mem k)) →
    packetStart mem (hdrNumPackets mem) ≤ hdrSize mem ∧ hdrSize mem ≤ mem.length
  flags : (∀ k < hdrNumPackets mem, Valid mem (packetStart mem k)) → hdrSessionId mem ≠ 0 →
    ∀ d, env.inst = some d → ∀ k < hdrNumPackets mem,
      (∀ j < k, offloads mem d (packetStart mem j) = false) →
      isOutputBuffer mem d (packetStart mem k) = true →
      bufferFlags (packetStart mem k)+4 ≤ hdrSize mem

/-! ## The validation -/

theorem validatePacket_accept {mem : List UInt8} {pkt : ℕ} :
    validatePacket mem pkt = .accept ↔ Valid mem pkt := by
  unfold validatePacket readU32 Valid pktSize headerSize
  constructor
  · intro h
    split_ifs at h with h0 h1 h4
    simp only [] at h
    split_ifs at h with hz hs he
    exact ⟨h4,by omega,by omega⟩
  · rintro ⟨h4,h32,hend⟩
    rw [if_neg (by omega),if_neg (by omega),if_pos h4]
    simp only []
    rw [if_neg (by omega),if_neg (by omega),if_neg (by omega)]

theorem validatePacket_fault {mem : List UInt8} {pkt : ℕ} :
    validatePacket mem pkt = .fault ↔ mem.length ≠ 0 ∧ pkt ≤ mem.length ∧ mem.length < pkt+4 := by
  unfold validatePacket readU32
  split_ifs with h0 h1 h2
  · simp [h0]
  · simp only [false_iff]
    omega
  · simp only []
    split_ifs <;> simp only [false_iff] <;> omega
  · simp only [true_iff]
    omega

variable {mem : List UInt8}

/-- Each packet starts where the one before it ends. -/
def Chained (mem : List UInt8) (start : ℕ → ℕ) : Prop :=
  ∀ k, start (k+1) = start k+pktSize mem (start k)

theorem chained_packetStart : Chained mem (packetStart mem) := fun _ => rfl

theorem Chained.tail {start : ℕ → ℕ} (h : Chained mem start) :
    Chained mem fun k => start (k+1) := fun k => h (k+1)

theorem validatePackets_accept (n : ℕ) {start : ℕ → ℕ} (hs : Chained mem start) :
    validatePackets mem n (start 0) = .accept ↔ ∀ k < n, Valid mem (start k) := by
  induction n generalizing start with
  | zero => exact iff_of_true rfl fun k hk => absurd hk (Nat.not_lt_zero k)
  | succ n ih =>
    have hnext : start 0+u32At mem (start 0) = start 1 := (hs 0).symm
    rw [Nat.forall_lt_succ_left,← ih hs.tail,← validatePacket_accept,validatePackets,hnext]
    cases hv : validatePacket mem (start 0) with
    | accept => exact ⟨fun h => ⟨rfl,h⟩,fun h => h.2⟩
    | reject => simp
    | fault => simp

theorem validatePackets_fault (hmem : mem.length ≠ 0) (n : ℕ) {start : ℕ → ℕ}
    (hs : Chained mem start) :
    validatePackets mem n (start 0) = .fault ↔
      ∃ k < n, (∀ j < k, Valid mem (start j)) ∧
        start k ≤ mem.length ∧ mem.length < start k+4 := by
  induction n generalizing start with
  | zero => exact iff_of_false Verdict.noConfusion fun ⟨k,hk,_⟩ => absurd hk (Nat.not_lt_zero k)
  | succ n ih =>
    have hnext : start 0+u32At mem (start 0) = start 1 := (hs 0).symm
    rw [validatePackets,hnext,Nat.exists_lt_succ_left]
    simp only [Nat.forall_lt_succ_left,Nat.not_lt_zero,false_imp_iff,implies_true,true_and]
    cases hv : validatePacket mem (start 0) with
    | accept =>
      have hval := validatePacket_accept.mp hv
      refine (ih hs.tail).trans ⟨fun ⟨k,hk,hj,he⟩ => Or.inr ⟨k,hk,⟨hval,hj⟩,he⟩,?_⟩
      rintro (⟨hle,hlt⟩ | ⟨k,hk,⟨-,hj⟩,he⟩)
      · have hroom := hval.1
        omega
      · exact ⟨k,hk,hj,he⟩
    | reject =>
      refine iff_of_false Verdict.noConfusion ?_
      rintro (⟨hle,hlt⟩ | ⟨k,hk,⟨hval,-⟩,he⟩)
      · have hf := validatePacket_fault.mpr ⟨hmem,hle,hlt⟩
        rw [hv] at hf
        cases hf
      · have ha := validatePacket_accept.mpr hval
        rw [hv] at ha
        cases ha
    | fault => exact iff_of_true rfl (Or.inl (validatePacket_fault.mp hv).2)

theorem validateHdrPacket_eq (buf : ResponseBuffer) :
    validateHdrPacket buf.bytes =
      if hdrSize buf.bytes < headerSize+headerSize then .reject
      else validatePackets buf.bytes (hdrNumPackets buf.bytes) headerSize := by
  have hl := buf.len
  unfold packetSize at hl
  rw [validateHdrPacket,readU32,readU32,if_pos (by omega),if_pos (by omega)]
  rfl

/-! ## The walks -/

theorem mem_walk (exit : ℕ → Bool) (n : ℕ) {start : ℕ → ℕ} (hs : Chained mem start)
    (look : Look) :
    look ∈ (walk mem exit n (start 0)).1 ↔
      ∃ k < n, (∀ j < k, exit (start j) = false) ∧ look = (start k,pktSize mem (start k)) := by
  induction n generalizing start with
  | zero => exact iff_of_false List.not_mem_nil fun ⟨k,hk,_⟩ => absurd hk (Nat.not_lt_zero k)
  | succ n ih =>
    rw [walk,← hs 0,Nat.exists_lt_succ_left]
    simp only [Nat.forall_lt_succ_left,Nat.not_lt_zero,false_imp_iff,implies_true,true_and]
    cases he : exit (start 0) with
    | true => simp
    | false =>
      rw [if_neg Bool.false_ne_true,List.mem_cons]
      refine or_congr_right ((ih hs.tail).trans ?_)
      simp only [true_and]

theorem mem_packets (exit : ℕ → Bool) (look : Look) :
    look ∈ (walk mem exit (hdrNumPackets mem) headerSize).1 ↔
      ∃ k < hdrNumPackets mem, (∀ j < k, exit (packetStart mem j) = false) ∧
        look = (packetStart mem k,pktSize mem (packetStart mem k)) :=
  mem_walk exit _ chained_packetStart look

theorem u32At_take {o m : ℕ} (h : o+4 ≤ m) : u32At (mem.take m) o = u32At mem o := by
  rw [u32At,u32At,List.drop_take,List.take_take,Nat.min_eq_left (by omega)]

/-- The packets of a copy of the message are those of the message. -/
theorem packetStart_take {m n : ℕ} (hroom : ∀ k < n, packetStart mem k+4 ≤ m) :
    ∀ k ≤ n, packetStart (mem.take m) k = packetStart mem k := by
  intro k hk
  induction k with
  | zero => rfl
  | succ k ih =>
    rw [packetStart,ih (by omega),pktSize,u32At_take (hroom k (by omega))]
    rfl

theorem mem_sessionPasses {look : Look} :
    look ∈ sessionPasses mem ↔ ∃ k < hdrNumPackets mem,
      look = (packetStart mem k,pktSize mem (packetStart mem k)) := by
  have hw := @mem_packets mem (fun _ => false) look
  simp only [implies_true,true_and] at hw
  simp only [sessionPasses,List.mem_flatMap,List.mem_range]
  exact ⟨fun ⟨_,_,h⟩ => hw.mp h,fun h => ⟨0,by omega,hw.mpr h⟩⟩

theorem mem_handleSystemResponse {failed : ℕ → ℕ → Bool} {look : Look}
    (h : look ∈ handleSystemResponse mem failed) :
    ∃ k < hdrNumPackets mem, look = (packetStart mem k,pktSize mem (packetStart mem k)) := by
  have hpass : ∀ i,
      look ∈ (walk mem (systemExit mem failed i) (hdrNumPackets mem) headerSize).1 →
      ∃ k < hdrNumPackets mem, look = (packetStart mem k,pktSize mem (packetStart mem k)) :=
    fun i hi => ((mem_packets _ _).mp hi).imp fun k hk => ⟨hk.1,hk.2.2⟩
  unfold handleSystemResponse at h
  simp only [] at h
  split_ifs at h
  · exact hpass 0 h
  · exact (List.mem_append.mp h).elim (hpass 0) (hpass 1)
  · refine (List.mem_append.mp h).elim (hpass 0) fun h => ?_
    exact (List.mem_append.mp h).elim (hpass 1) (hpass 2)

/-- What the search looks at: the packets up to the first that is handed on, and the flags
of the output buffers among them. -/
theorem mem_search {d : Domain} {look : Look} :
    look ∈ (walk mem (offloads mem d) (hdrNumPackets mem) headerSize).1.flatMap
      (searchLooks mem d) ↔
      ∃ k < hdrNumPackets mem, (∀ j < k, offloads mem d (packetStart mem j) = false) ∧
        (look = (packetStart mem k,pktSize mem (packetStart mem k)) ∨
          isOutputBuffer mem d (packetStart mem k) = true ∧
            look = (bufferFlags (packetStart mem k),4)) := by
  have hw := @mem_packets mem (offloads mem d)
  rw [List.mem_flatMap]
  constructor
  · rintro ⟨p,hp,hl⟩
    obtain ⟨k,hk,hj,rfl⟩ := (hw p).mp hp
    refine ⟨k,hk,hj,?_⟩
    rcases List.mem_cons.mp hl with rfl | hl
    · exact Or.inl rfl
    · split_ifs at hl with hb
      · exact Or.inr ⟨hb,List.mem_singleton.mp hl⟩
      · cases hl
  · rintro ⟨k,hk,hj,hl⟩
    refine ⟨_,(hw _).mpr ⟨k,hk,hj,rfl⟩,?_⟩
    rcases hl with rfl | ⟨hb,rfl⟩
    · exact List.mem_cons_self ..
    · refine List.mem_cons_of_mem _ ?_
      rw [if_pos hb]
      exact List.mem_singleton_self _

/-! ## The message -/

theorem packetStart_mono {n : ℕ} : ∀ k ≤ n, packetStart mem k ≤ packetStart mem n := by
  induction n with
  | zero =>
    intro k hk
    rw [Nat.le_zero.mp hk]
  | succ n ih =>
    intro k hk
    rcases Nat.lt_or_ge n k with h | h
    · rw [Nat.le_antisymm hk h]
    · exact (ih k h).trans (Nat.le_add_right ..)

/-- Everything that is looked at lies in the message when its packets and the flags that
the search reads do. -/
theorem handleResponse_le {env : Env} (h64 : headerSize+headerSize ≤ hdrSize mem)
    (hpkt : ∀ k < hdrNumPackets mem,
      packetStart mem k+pktSize mem (packetStart mem k) ≤ hdrSize mem)
    (hval : ∀ k < hdrNumPackets mem, headerSize ≤ pktSize mem (packetStart mem k))
    (hflags : hdrSessionId mem ≠ 0 → ∀ d, env.inst = some d → ∀ k < hdrNumPackets mem,
      (∀ j < k, offloads mem d (packetStart mem j) = false) →
      isOutputBuffer mem d (packetStart mem k) = true →
      bufferFlags (packetStart mem k)+4 ≤ hdrSize mem) :
    ∀ look ∈ handleResponse mem env, look.1+look.2 ≤ hdrSize mem := by
  intro look hlook
  unfold headerSize at h64 hval
  unfold handleResponse at hlook
  by_cases hid : hdrSessionId mem = 0
  · rw [if_pos hid] at hlook
    obtain ⟨k,hk,rfl⟩ := mem_handleSystemResponse hlook
    exact hpkt k hk
  · rw [if_neg hid] at hlook
    cases hd : env.inst with
    | none =>
      rw [hd] at hlook
      cases hlook
    | some d =>
      rw [hd] at hlook
      rcases List.mem_append.mp hlook with hs | hw
      · obtain ⟨k,hk,hj,rfl | ⟨hb,rfl⟩⟩ := mem_search.mp hs
        · exact hpkt k hk
        · exact hflags hid d hd k hk hj hb
      · split_ifs at hw with hoff hq
        · rcases List.mem_cons.mp hw with rfl | hw
          · exact Nat.le_of_eq (Nat.zero_add _)
          · have hn : hdrNumPackets (mem.take (hdrSize mem)) = hdrNumPackets mem :=
              u32At_take (by omega)
            have hroom : ∀ k < hdrNumPackets mem, packetStart mem k+4 ≤ hdrSize mem := by
              intro k hk
              have hp := hpkt k hk
              have hv := hval k hk
              omega
            obtain ⟨k,hk,rfl⟩ := mem_sessionPasses.mp hw
            rw [hn] at hk
            have hsz : pktSize (mem.take (hdrSize mem)) (packetStart mem k) =
              pktSize mem (packetStart mem k) := u32At_take (hroom k hk)
            rw [packetStart_take hroom k hk.le,hsz]
            exact hpkt k hk
        · cases hw
        · obtain ⟨k,hk,rfl⟩ := mem_sessionPasses.mp hw
          exact hpkt k hk

theorem covers_of_wellSized (buf : ResponseBuffer) (env : Env)
    (h64 : headerSize+headerSize ≤ hdrSize buf.bytes) (h : WellSized buf.bytes env) :
    Covers buf.bytes env := by
  have hl := buf.len
  unfold packetSize at hl
  rw [Covers,validateHdrPacket_eq,if_neg (by omega)]
  constructor
  · intro hf
    obtain ⟨k,hk,hj,-,hlt⟩ :=
      (validatePackets_fault (by omega) _ chained_packetStart).mp hf
    have hroom := h.room k hk hj
    omega
  · intro hacc
    have hval := (validatePackets_accept _ chained_packetStart).mp hacc
    obtain ⟨htot,hle⟩ := h.total hval
    have hpkt : ∀ k < hdrNumPackets buf.bytes,
        packetStart buf.bytes k+pktSize buf.bytes (packetStart buf.bytes k) ≤
          hdrSize buf.bytes := fun k hk => (packetStart_mono (k+1) hk).trans htot
    exact ⟨hle,hpkt,handleResponse_le h64 hpkt (fun k hk => (hval k hk).2.1) (h.flags hval)⟩

theorem wellSized_of_covers (buf : ResponseBuffer) (env : Env)
    (h64 : headerSize+headerSize ≤ hdrSize buf.bytes) (h : Covers buf.bytes env) :
    WellSized buf.bytes env := by
  have hl := buf.len
  unfold packetSize at hl
  unfold headerSize at h64
  rw [Covers,validateHdrPacket_eq,if_neg (by unfold headerSize; omega)] at h
  obtain ⟨hnf,hacc⟩ := h
  have haccept := fun hval => hacc ((validatePackets_accept _ chained_packetStart).mpr hval)
  refine ⟨fun k hk hj => ?_,fun hval => ?_,fun hval hid d hd k hk hj hb => ?_⟩
  · by_contra hc
    refine hnf ((validatePackets_fault (by omega) _ chained_packetStart).mpr ⟨k,hk,hj,?_,by omega⟩)
    cases k with
    | zero => exact (show (32 : ℕ) ≤ _ by omega)
    | succ k => exact (hj k (Nat.lt_succ_self k)).2.2
  · obtain ⟨hle,hpkt,-⟩ := haccept hval
    refine ⟨?_,hle⟩
    cases hn : hdrNumPackets buf.bytes with
    | zero => exact (show (32 : ℕ) ≤ _ by omega)
    | succ n => exact hpkt n (by omega)
  · refine (haccept hval).2.2 (bufferFlags (packetStart buf.bytes k),4) ?_
    rw [handleResponse,if_neg hid,hd]
    exact List.mem_append_left _ (mem_search.mpr ⟨k,hk,hj,Or.inr ⟨hb,rfl⟩⟩)

/-- The validation covers what is walked later exactly on the messages with these sizes. -/
theorem covers_iff (buf : ResponseBuffer) (env : Env) :
    Covers buf.bytes env ↔
      (headerSize+headerSize ≤ hdrSize buf.bytes → WellSized buf.bytes env) := by
  by_cases h64 : headerSize+headerSize ≤ hdrSize buf.bytes
  · exact ⟨fun h _ => wellSized_of_covers buf env h64 h,
      fun h => covers_of_wellSized buf env h64 (h h64)⟩
  · refine iff_of_true ?_ fun h => absurd h h64
    rw [Covers,validateHdrPacket_eq,if_pos (by omega)]
    exact ⟨Verdict.noConfusion,Verdict.noConfusion⟩

/-- A message of 64 bytes with one packet of 100 bytes -/
def overlong : ResponseBuffer where
  bytes := [64,0,0,0,0,0,0,0,0,0,0,0,0,0,0,0,0,0,0,0,0,0,0,0,0,0,0,0,1,0,0,0,100,0,0,0] ++
    List.replicate 4060 0
  len := by rw [List.length_append,List.length_replicate]; rfl

theorem not_covers_overlong : ¬Covers overlong.bytes ⟨none,true,fun _ _ => false⟩ := by
  rw [covers_iff]
  intro h
  have hsize : hdrSize overlong.bytes = 64 := by decide
  have hnum : hdrNumPackets overlong.bytes = 1 := by decide
  have hpkt : pktSize overlong.bytes 32 = 100 := by decide
  have hl := overlong.len
  unfold packetSize at hl
  have htot := (h (by rw [hsize]; decide)).total
  rw [hnum] at htot
  have hend := (htot fun k hk => by
    obtain rfl := Nat.lt_one_iff.mp hk
    show Valid _ 32
    exact ⟨by omega,by rw [hpkt]; decide,by rw [hpkt]; omega⟩).1
  have hstart : packetStart overlong.bytes 1 = 132 := by
    show 32+pktSize overlong.bytes 32 = 132
    rw [hpkt]
  rw [hstart,hsize] at hend
  omega

end HfiResponse
end MarbleModules
