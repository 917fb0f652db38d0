import MarbleModules.Runs

/-! The transmit side of an HTC endpoint with credit based flow control: the senders, the one
thread that drains the queue of the endpoint, the credit reports and the completions. A step is
what one of them does between two points at which another can come in. -/
namespace MarbleModules
namespace HtcSend

/-- `HTC_HDR_LENGTH` -/
def htcHdrLength : ℕ := 8

/-- The tags that the queues are searched for -/
inductive Tag
  | autoPm | systemResume | other
  deriving DecidableEq

/-- `HTC_PACKET`; `netbuf` tells packets apart, and `needCreditUpdate` is the one of its send
flags. -/
structure Packet where
  netbuf : ℕ
  actualLength : ℕ
  tag : Tag
  creditsUsed : ℕ
  needCreditUpdate : Bool
  deriving DecidableEq

/-- What does not change of an endpoint: whether it is `ENDPOINT_0`, whether its service is
`WMI_CONTROL_SVC`, and whether its user has `EpSendFull` -/
structure Config where
  endpoint0 : Bool
  wmiControlSvc : Bool
  epSendFull : Bool
  maxTxQueueDepth : ℕ
  txCreditSize : ℕ
  txCreditsPerMaxMsg : ℕ

/-- Where the thread is that has raised `TxProcessCount`: in `htc_issue_packets` in front of the
next packet, in front of `hif_send_head` with one, or on its way out with packets that have not
been sent -/
inductive Drainer
  | idle
  | issues (sendQueue : List Packet)
  | sends (packet : Packet) (sendQueue : List Packet)
  | returns (sendQueue : List Packet)
  deriving DecidableEq

/-- `HTC_ENDPOINT`. `kicks` counts the threads behind a credit report that are going to call
`htc_try_send`. The last five are history: the packets that have come in and that have been
completed, the credits of the packets that have been sent, the credits reported, and whether the
last packet taken off the queue asks for credits. -/
structure Endpoint where
  txCredits : ℤ
  txQueue : List Packet
  txLookupQueue : List Packet
  ulOutstandingCnt : ℤ
  isNodropPkt : Bool
  drainer : Drainer
  kicks : ℕ
  submitted : List ℕ
  completed : List ℕ
  sentCredits : ℤ
  reportedCredits : ℤ
  asked : Option Bool
  deriving DecidableEq

/-- The answers of `hif_pm_runtime_get` and `hif_system_pm_state_check` in each turn of a loop:
whether it may go on -/
abbrev Pm := ℕ → Bool × Bool

/-- The credits a packet takes -/
def creditsRequired (cfg : Config) (p : Packet) : ℕ :=
  if cfg.endpoint0 then 0
  else if p.actualLength+htcHdrLength ≤ cfg.txCreditSize then 1
  else (p.actualLength+htcHdrLength)/cfg.txCreditSize+
    if (p.actualLength+htcHdrLength)%cfg.txCreditSize = 0 then 0 else 1

/-- What the loop of `get_htc_send_packets_credit_based` takes, what it leaves, the credits then
and whether the last packet it took asks for credits -/
structure Fetched where
  taken : List Packet
  left : List Packet
  txCredits : ℤ
  asked : Option Bool

/-- The loop of `get_htc_send_packets_credit_based` over a queue, from its turn `i` on -/
def fetchLoop (cfg : Config) (doPmGet sysPmCheck : Bool) (pm : Pm) :
    ℕ → ℤ → Option Bool → List Packet → Fetched
  | _, txCredits, asked, [] => ⟨[],[],txCredits,asked⟩
  | i, txCredits, asked, p::rest =>
    if doPmGet ∧ (pm i).1 = false then ⟨[],p::rest,txCredits,asked⟩
    else if sysPmCheck ∧ (pm i).2 = false then ⟨[],p::rest,txCredits,asked⟩
    else if cfg.endpoint0 then
      let r := fetchLoop cfg doPmGet sysPmCheck pm (i+1) txCredits (some false) rest
      { r with taken := { p with creditsUsed := 0, needCreditUpdate := false }::r.taken }
    else if txCredits < creditsRequired cfg p then ⟨[],p::rest,txCredits,asked⟩
    else
      let txCredits := txCredits-creditsRequired cfg p
      let need : Bool := txCredits ≤ cfg.txCreditsPerMaxMsg
      let r := fetchLoop cfg doPmGet sysPmCheck pm (i+1) txCredits (some need) rest
      { r with
        taken := { p with
          creditsUsed := creditsRequired cfg p
          needCreditUpdate := need }::r.taken }

/-- The packets of a tag that `extract_htc_pm_packets` and `extract_htc_system_resume_pkts` take
out; only the endpoint of `WMI_CONTROL_SVC` has them. -/
def extracts (cfg : Config) (tag : Tag) (p : Packet) : Bool := cfg.wmiControlSvc && p.tag = tag

namespace Endpoint

/-- The queue `get_htc_send_packets_credit_based` takes from -/
def fetchQueue (cfg : Config) (e : Endpoint) : List Packet :=
  if (e.txQueue.filter (extracts cfg .autoPm)) ≠ [] then e.txQueue.filter (extracts cfg .autoPm)
  else if (e.txQueue.filter (extracts cfg .systemResume)) ≠ [] then
    e.txQueue.filter (extracts cfg .systemResume)
  else e.txQueue

/-- `get_htc_send_packets_credit_based`. What is left of packets of `autoPm` goes back to the
queue, what is left of packets of `systemResume` does not. -/
def getHtcSendPacketsCreditBased (cfg : Config) (e : Endpoint) (pm : Pm) :
    List Packet × Endpoint :=
  if (e.txQueue.filter (extracts cfg .autoPm)) ≠ [] then
    let r := fetchLoop cfg false false pm 0 e.txCredits e.asked
      (e.txQueue.filter (extracts cfg .autoPm))
    (r.taken,{ e with
      txCredits := r.txCredits
      asked := r.asked
      txQueue := r.left++e.txQueue.filter (!extracts cfg .autoPm ·) })
  else if (e.txQueue.filter (extracts cfg .systemResume)) ≠ [] then
    let r := fetchLoop cfg true false pm 0 e.txCredits e.asked
      (e.txQueue.filter (extracts cfg .systemResume))
    (r.taken,{ e with
      txCredits := r.txCredits
      asked := r.asked
      txQueue := e.txQueue.filter (!extracts cfg .systemResume ·) })
  else
    let r := fetchLoop cfg true true pm 0 e.txCredits e.asked e.txQueue
    (r.taken,{ e with txCredits := r.txCredits, asked := r.asked, txQueue := r.left })

/-- The loop of `htc_try_send` under the lock: it goes on to `htc_issue_packets`, or ends. -/
def drainPass (cfg : Config) (e : Endpoint) (pm : Pm) : Endpoint :=
  if e.txQueue = [] then { e with drainer := .idle }
  else
    let r := e.getHtcSendPacketsCreditBased cfg pm
    if r.1 = [] then { r.2 with drainer := .idle } else { r.2 with drainer := .issues r.1 }

/-- `htc_try_send` from `TxProcessCount` on: another thread may be draining. -/
def tryDrain (cfg : Config) (e : Endpoint) (pm : Pm) : Endpoint :=
  if e.drainer = .idle then e.drainPass cfg pm else e

/-- `htc_send_pkt`; `drop` is the answer of `EpSendFull`, which is asked only when the queue
overflows. -/
def htcSendPkt (cfg : Config) (e : Endpoint) (p : Packet) (drop : Bool) (pm : Pm) : Endpoint :=
  if cfg.maxTxQueueDepth ≤ e.txQueue.length ∧ cfg.epSendFull ∧ drop then
    { e with submitted := e.submitted++[p.netbuf], completed := e.completed++[p.netbuf] }
  else if e.isNodropPkt then
    tryDrain cfg { e with
      submitted := e.submitted++[p.netbuf]
      txQueue := p::e.txQueue
      isNodropPkt := false } pm
  else
    tryDrain cfg { e with
      submitted := e.submitted++[p.netbuf]
      txQueue := e.txQueue++[p] } pm

/-- `htc_process_credit_rpt` for one entry, up to its call of `htc_try_send` -/
def creditRpt (e : Endpoint) (credits : ℕ) : Endpoint :=
  { e with
    txCredits := e.txCredits+credits
    reportedCredits := e.reportedCredits+credits
    kicks := if e.txCredits+credits ≠ 0 ∧ e.txQueue ≠ [] then e.kicks+1 else e.kicks }

/-- `htc_process_credit_rpt` calls `htc_try_send`. -/
def kick (cfg : Config) (e : Endpoint) (pm : Pm) : Endpoint :=
  if e.kicks = 0 then e else tryDrain cfg { e with kicks := e.kicks-1 } pm

/-- `htc_issue_packets` maps the next packet and puts it into the lookup queue. When the mapping
fails it gives up. -/
def issueMap (e : Endpoint) (mapped : Bool) : Endpoint :=
  match e.drainer with
  | .issues (p::rest) =>
    if mapped then
      { e with
        txLookupQueue := e.txLookupQueue++[p]
        ulOutstandingCnt := e.ulOutstandingCnt+1
        drainer := .sends p rest }
    else { e with drainer := .returns (p::rest) }
  | _ => e

/-- `htc_issue_packets` calls `hif_send_head`. When that fails it takes the packet back, and the
credits of it and of those behind it. -/
def issueSend (e : Endpoint) (sent : Bool) : Endpoint :=
  match e.drainer with
  | .sends p rest =>
    if sent then
      { e with sentCredits := e.sentCredits+p.creditsUsed, drainer := .issues rest }
    else
      { e with
        ulOutstandingCnt := e.ulOutstandingCnt-1
        txLookupQueue := e.txLookupQueue.eraseP (·.netbuf = p.netbuf)
        txCredits := e.txCredits+((p::rest).map fun q => (q.creditsUsed : ℤ)).sum
        drainer := .returns (p::rest) }
  | _ => e

/-- `htc_issue_packets` has sent everything, and `htc_try_send` takes its lock again. -/
def issueDone (cfg : Config) (e : Endpoint) (pm : Pm) : Endpoint :=
  match e.drainer with
  | .issues [] => e.drainPass cfg pm
  | _ => e

/-- `htc_try_send` puts back what has not been sent, and ends. -/
def requeue (e : Endpoint) : Endpoint :=
  match e.drainer with
  | .returns q => { e with txQueue := q++e.txQueue, drainer := .idle }
  | _ => e

/-- `htc_lookup_tx_packet`: the packet, and the lookup queue then -/
def htcLookupTxPacket (netbuf : ℕ) : List Packet → Option Packet × List Packet
  | [] => (none,[])
  | p::rest =>
    if p.netbuf = netbuf then (some p,rest)
    else ((p::rest).find? (·.netbuf = netbuf),(p::rest).eraseP (·.netbuf = netbuf))

/-- `htc_tx_completion_handler` -/
def txCompletionHandler (e : Endpoint) (netbuf : ℕ) : Endpoint :=
  let r := htcLookupTxPacket netbuf e.txLookupQueue
  { e with
    ulOutstandingCnt := e.ulOutstandingCnt-1
    txLookupQueue := r.2
    completed := e.completed++(r.1.map Packet.netbuf).toList }

/-- `htc_flush_endpoint_tx` -/
def htcFlushEndpointTx (e : Endpoint) : Endpoint :=
  { e with txQueue := [], completed := e.completed++e.txQueue.map Packet.netbuf }

/-- `htc_flush_endpoint_txlookupQ` -/
def htcFlushEndpointTxlookupQ (e : Endpoint) : Endpoint :=
  { e with txLookupQueue := [], completed := e.completed++e.txLookupQueue.map Packet.netbuf }

end Endpoint

inductive Op
  | send (p : Packet) (drop : Bool) (pm : Pm)
  | setNodropPkt (isNodropPkt : Bool)
  | creditRpt (credits : ℕ)
  | kick (pm : Pm)
  | resume (pm : Pm)
  | issueMap (mapped : Bool)
  | issueSend (sent : Bool)
  | issueDone (pm : Pm)
  | requeue
  | complete (netbuf : ℕ)
  | flushTx
  | flushLookup

def step (cfg : Config) (e : Endpoint) : Op → Endpoint
  | .send p drop pm => e.htcSendPkt cfg p drop pm
  | .setNodropPkt isNodropPkt => { e with isNodropPkt := isNodropPkt }
  | .creditRpt credits => e.creditRpt credits
  | .kick pm => e.kick cfg pm
  | .resume pm => e.tryDrain cfg pm
  | .issueMap mapped => e.issueMap mapped
  | .issueSend sent => e.issueSend sent
  | .issueDone pm => e.issueDone cfg pm
  | .requeue => e.requeue
  | .complete netbuf => e.txCompletionHandler netbuf
  | .flushTx => e.htcFlushEndpointTx
  | .flushLookup => e.htcFlushEndpointTxlookupQ

/-- `htc_connect_service` gives the endpoint its credits. -/
def connect (txAlloc : ℕ) : Endpoint :=
  ⟨txAlloc,[],[],0,false,.idle,0,[],[],0,0,none⟩

end HtcSend
end MarbleModules
