import Mathlib.Tactic
import MarbleModules.Runs

/-! The cache of PDN entries (`ipa_nat_drvi.c`, `ipa_nat_drv.c`). Every call returns the
entries of `pdns` that it has touched; the entries from `IPA_MAX_PDN_NUM` on are the memory
behind the array. -/
namespace MarbleModules
namespace IpaNatPdn

open Runs

/-- `ipa_nat_pdn_entry` -/
structure PdnEntry where
  publicIp : BitVec 32
  srcMetadata : BitVec 32
  dstMetadata : BitVec 32
  deriving DecidableEq

def zeroEntry : PdnEntry := ⟨0,0,0⟩

/-- `pdns` and `num_pdns` -/
structure PdnCache where
  pdns : ℕ → PdnEntry
  numPdns : ℕ

/-- The statics as the library is loaded. -/
def boot : PdnCache := ⟨fun _ => zeroEntry,0⟩

/-- What the creation of a NAT table does to the cache. -/
def PdnCache.addIpv4Tbl (c : PdnCache) (publicIpAddr : BitVec 32) : PdnCache where
  pdns := Function.update c.pdns 0 { c.pdns 0 with publicIp := publicIpAddr }
  numPdns := 1

/-- Whether a cache has its descriptor open, and what the `ioctl` returns. -/
structure Kernel where
  ipaDesc : Bool
  ioctl : ℤ
  deriving DecidableEq

def eio : ℤ := -5
def einval : ℤ := -22

/-- The cache a call leaves, what it returns, what it stores through `pdn_index`, and the
entries of `pdns` it has read or written. -/
structure Outcome where
  cache : PdnCache
  ret : ℤ
  pdnIndex : Option (BitVec 8)
  touched : List ℕ

def ipaNatiModifyPdn (k : Kernel) (c : PdnCache) (pdnIndex : BitVec 8) (e : PdnEntry) :
    Outcome :=
  if k.ipaDesc = false then ⟨c,eio,none,[]⟩
  else if k.ioctl ≠ 0 then ⟨c,k.ioctl,none,[]⟩
  else ⟨{ c with pdns := Function.update c.pdns pdnIndex.toNat e },0,none,[pdnIndex.toNat]⟩

/-- How the search of `ipa_nati_alloc_pdn` ends. -/
inductive Found where
  | same (i : ℕ)
  | empty (i : ℕ)
  | full
  deriving DecidableEq

/-- The search of `ipa_nati_alloc_pdn` over the next entries from `i` on. -/
def allocScan (pdns : ℕ → PdnEntry) (publicIp : BitVec 32) : ℕ → ℕ → Found × List ℕ
  | 0, _ => (.full,[])
  | left+1, i =>
    if (pdns i).publicIp = publicIp then (.same i,[i])
    else if pdns i = zeroEntry then (.empty i,[i])
    else
      let rest := allocScan pdns publicIp left (i+1)
      (rest.1,i::rest.2)

/-- `n` is `IPA_MAX_PDN_NUM`. -/
def ipaNatiAllocPdn (n : ℕ) (k : Kernel) (c : PdnCache) (pdnInfo : PdnEntry) : Outcome :=
  if n-1 ≤ c.numPdns then ⟨c,eio,none,[]⟩
  else
    match allocScan c.pdns pdnInfo.publicIp (n-1) 0 with
    | (.same i,touched) => ⟨c,0,some (BitVec.ofNat 8 i),touched⟩
    | (.full,touched) => ⟨c,eio,none,touched⟩
    | (.empty i,touched) =>
      let m := ipaNatiModifyPdn k c (BitVec.ofNat 8 i) pdnInfo
      if m.ret = 0 then
        ⟨{ m.cache with numPdns := m.cache.numPdns+1 },0,some (BitVec.ofNat 8 i),
          touched++m.touched⟩
      else ⟨m.cache,m.ret,none,touched++m.touched⟩

def ipaNatiDeallocPdn (k : Kernel) (c : PdnCache) (pdnIndex : BitVec 8) : Outcome :=
  if c.numPdns = 0 then ⟨c,eio,none,[]⟩
  else if c.pdns pdnIndex.toNat = zeroEntry then ⟨c,eio,none,[pdnIndex.toNat]⟩
  else
    let m := ipaNatiModifyPdn k c pdnIndex zeroEntry
    if m.ret ≠ 0 then ⟨m.cache,eio,none,pdnIndex.toNat::m.touched⟩
    else
      ⟨{ pdns := Function.update m.cache.pdns pdnIndex.toNat zeroEntry,
         numPdns := m.cache.numPdns-1 },0,none,
        pdnIndex.toNat::m.touched++[pdnIndex.toNat]⟩

/-- `VALID_TBL_HDL`: the table number is `IPA_NAT_MAX_IP4_TBLS`. -/
def validTblHdl (tblHdl : BitVec 32) : Bool := tblHdl &&& 0xFF == 1

def ipaNatModifyPdn (n : ℕ) (k : Kernel) (c : PdnCache) (tblHdl : BitVec 32)
    (pdnIndex : BitVec 8) (pdnInfo : Option PdnEntry) : Outcome :=
  if validTblHdl tblHdl = false then ⟨c,einval,none,[]⟩
  else
    match pdnInfo with
    | none => ⟨c,einval,none,[]⟩
    | some e =>
      if n < pdnIndex.toNat then ⟨c,einval,none,[]⟩
      else ipaNatiModifyPdn k c pdnIndex e

/-- `out` tells whether the caller passes a place for the index. -/
def ipaNatAllocPdn (n : ℕ) (k : Kernel) (c : PdnCache) (pdnInfo : Option PdnEntry)
    (out : Bool) : Outcome :=
  match pdnInfo with
  | none => ⟨c,einval,none,[]⟩
  | some e => if out = false then ⟨c,einval,none,[]⟩ else ipaNatiAllocPdn n k c e

def ipaNatDeallocPdn (n : ℕ) (k : Kernel) (c : PdnCache) (pdnIndex : BitVec 8) : Outcome :=
  if n < pdnIndex.toNat then ⟨c,einval,none,[]⟩ else ipaNatiDeallocPdn k c pdnIndex

/-- The calls of the upper layer. -/
inductive PdnCall where
  | alloc (pdnInfo : Option PdnEntry) (out : Bool)
  | dealloc (pdnIndex : BitVec 8)
  | modify (tblHdl : BitVec 32) (pdnIndex : BitVec 8) (pdnInfo : Option PdnEntry)
  deriving DecidableEq

def call (n : ℕ) (c : PdnCache) : Kernel × PdnCall → Outcome
  | (k,.alloc pdnInfo out) => ipaNatAllocPdn n k c pdnInfo out
  | (k,.dealloc pdnIndex) => ipaNatDeallocPdn n k c pdnIndex
  | (k,.modify tblHdl pdnIndex pdnInfo) => ipaNatModifyPdn n k c tblHdl pdnIndex pdnInfo

def step (n : ℕ) (c : PdnCache) (op : Kernel × PdnCall) : PdnCache := (call n c op).cache

/-- The `ioctl` of the call succeeds, and an address to be allocated is not zero. -/
def Legal (_ : PdnCache) : Kernel × PdnCall → Prop
  | (k,.alloc (some e) _) => (k.ipaDesc = true ∧ k.ioctl = 0) ∧ e.publicIp ≠ 0
  | (k,_) => k.ipaDesc = true ∧ k.ioctl = 0

def PdnCall.isAlloc : PdnCall → Bool
  | .alloc _ _ => true
  | _ => false

def PdnCall.isModify : PdnCall → Bool
  | .modify _ _ _ => true
  | _ => false

/-- Two entries of the array hold one address. -/
def Twins (n : ℕ) (c : PdnCache) (i j : ℕ) : Prop :=
  i < n ∧ j < n ∧ i ≠ j ∧ (c.pdns i).publicIp ≠ 0 ∧ (c.pdns i).publicIp = (c.pdns j).publicIp

/-- The call stays within the array and, if it allocates, gives no address a second entry. -/
structure Sound (n : ℕ) (c : PdnCache) (op : Kernel × PdnCall) : Prop where
  inside : ∀ i ∈ (call n c op).touched, i < n
  single : op.2.isAlloc = true → ∀ i j, Twins n (step n c op) i j → Twins n c i j

/-- The entries of the array that are not empty. -/
def used (n : ℕ) (c : PdnCache) : Finset ℕ :=
  (Finset.range n).filter fun i => c.pdns i ≠ zeroEntry

/-- `num_pdns` counts the entries that are not empty. -/
def Counted (n : ℕ) (c : PdnCache) : Prop := c.numPdns = (used n c).card

/-- The address has no entry before the first empty one, and has one behind it. -/
def Hidden (n : ℕ) (c : PdnCache) (publicIp : BitVec 32) : Prop :=
  ∃ i < n, c.pdns i = zeroEntry ∧
    (∀ j < i, c.pdns j ≠ zeroEntry ∧ (c.pdns j).publicIp ≠ publicIp) ∧
    ∃ j < n, i < j ∧ (c.pdns j).publicIp = publicIp

/-- A call that names no entry right behind the array and allocates no hidden address. -/
def Suits (n : ℕ) (c : PdnCache) : Kernel × PdnCall → Prop
  | (_,.alloc (some e) true) => c.numPdns < n-1 → ¬Hidden n c e.publicIp
  | (_,.alloc _ _) => True
  | (_,.dealloc pdnIndex) => c.numPdns ≠ 0 → pdnIndex.toNat ≠ n
  | (_,.modify tblHdl pdnIndex (some _)) => validTblHdl tblHdl = true → pdnIndex.toNat ≠ n
  | (_,.modify _ _ none) => True

/-- What the cache promises of a run. -/
structure Consistent (n : ℕ) (c : PdnCache) (ops : List (Kernel × PdnCall)) : Prop where
  sound : Guarded (step n) (Sound n) c ops
  counted : (∀ op ∈ ops, op.2.isModify = false) → Always (step n) (Counted n) c ops

variable {n m : ℕ} {c : PdnCache} {op : Kernel × PdnCall}

/-- The search has gone on behind this entry. -/
def Passed (pdns : ℕ → PdnEntry) (publicIp : BitVec 32) (i : ℕ) : Prop :=
  pdns i ≠ zeroEntry ∧ (pdns i).publicIp ≠ publicIp

/-- What the end of a search from `lo` up to `hi` says of the entries. -/
def Found.Tells (pdns : ℕ → PdnEntry) (publicIp : BitVec 32) (lo hi : ℕ) : Found → Prop
  | .same i => lo ≤ i ∧ i < hi ∧ (pdns i).publicIp = publicIp ∧
      ∀ j, lo ≤ j → j < i → Passed pdns publicIp j
  | .empty i => lo ≤ i ∧ i < hi ∧ pdns i = zeroEntry ∧
      ∀ j, lo ≤ j → j < i → Passed pdns publicIp j
  | .full => ∀ j, lo ≤ j → j < hi → Passed pdns publicIp j

theorem Found.Tells.pass {pdns : ℕ → PdnEntry} {publicIp : BitVec 32} {lo hi : ℕ} {f : Found}
    (hlo : Passed pdns publicIp lo) (h : f.Tells pdns publicIp (lo+1) hi) :
    f.Tells pdns publicIp lo hi := by
  have hall : ∀ {m : ℕ}, (∀ j, lo+1 ≤ j → j < m → Passed pdns publicIp j) →
      ∀ j, lo ≤ j → j < m → Passed pdns publicIp j := by
    intro m hm j hj hjm
    rcases Nat.eq_or_lt_of_le hj with rfl | hlt
    · exact hlo
    · exact hm j hlt hjm
  cases f with
  | same i => exact ⟨by have := h.1; omega,h.2.1,h.2.2.1,hall h.2.2.2⟩
  | empty i => exact ⟨by have := h.1; omega,h.2.1,h.2.2.1,hall h.2.2.2⟩
  | full => exact hall h

theorem allocScan_tells (pdns : ℕ → PdnEntry) (publicIp : BitVec 32) (left i : ℕ) :
    (allocScan pdns publicIp left i).1.Tells pdns publicIp i (i+left) := by
  induction left generalizing i with
  | zero =>
    intro j hj hlt
    omega
  | succ left ih =>
    rw [allocScan]
    by_cases hsame : (pdns i).publicIp = publicIp
    · rw [if_pos hsame]
      exact ⟨le_rfl,by omega,hsame,fun j hj hlt => absurd hj (by omega)⟩
    rw [if_neg hsame]
    by_cases hzero : pdns i = zeroEntry
    · rw [if_pos hzero]
      exact ⟨le_rfl,by omega,hzero,fun j hj hlt => absurd hj (by omega)⟩
    rw [if_neg hzero]
    have hh := ih (i+1)
    rw [show i+1+left = i+(left+1) by omega] at hh
    exact hh.pass ⟨hzero,hsame⟩

theorem allocScan_touched (pdns : ℕ → PdnEntry) (publicIp : BitVec 32) (left i : ℕ) :
    ∀ j ∈ (allocScan pdns publicIp left i).2, j < i+left := by
  induction left generalizing i with
  | zero =>
    intro j hj
    cases hj
  | succ left ih =>
    intro j hj
    rw [allocScan] at hj
    split_ifs at hj
    · rw [List.mem_singleton.mp hj]
      omega
    · rw [List.mem_singleton.mp hj]
      omega
    · rcases List.mem_cons.mp hj with rfl | hj
      · omega
      · have := ih (i+1) j hj
        omega

theorem ipaNatiModifyPdn_ok {k : Kernel} (hk : k.ipaDesc = true ∧ k.ioctl = 0)
    (c : PdnCache) (pdnIndex : BitVec 8) (e : PdnEntry) :
    ipaNatiModifyPdn k c pdnIndex e =
      ⟨{ c with pdns := Function.update c.pdns pdnIndex.toNat e },0,none,[pdnIndex.toNat]⟩ := by
  rw [ipaNatiModifyPdn,if_neg (by simp [hk.1]),if_neg (by simp [hk.2])]

/-- The cache after an allocation has taken entry `i`. -/
def PdnCache.take (c : PdnCache) (i : ℕ) (e : PdnEntry) : PdnCache :=
  ⟨Function.update c.pdns i e,c.numPdns+1⟩

theorem take_pdns_self (c : PdnCache) (i : ℕ) (e : PdnEntry) : (c.take i e).pdns i = e :=
  Function.update_self ..

theorem take_pdns_of_ne (c : PdnCache) {i j : ℕ} (e : PdnEntry) (h : j ≠ i) :
    (c.take i e).pdns j = c.pdns j :=
  Function.update_of_ne h ..

/-- An allocation takes the first empty entry, or leaves the cache as it is; then the address
is not hidden. -/
theorem ipaNatiAllocPdn_cases (hn : n ≤ 256) {k : Kernel} (hk : k.ipaDesc = true ∧ k.ioctl = 0)
    (c : PdnCache) {e : PdnEntry} (he : e.publicIp ≠ 0) :
    (∀ i ∈ (ipaNatiAllocPdn n k c e).touched, i < n) ∧
      (((ipaNatiAllocPdn n k c e).cache = c ∧
          (c.numPdns < n-1 → ¬Hidden n c e.publicIp)) ∨
        (c.numPdns < n-1 ∧ ∃ i, i < n-1 ∧ c.pdns i = zeroEntry ∧
          (∀ j < i, Passed c.pdns e.publicIp j) ∧
          (ipaNatiAllocPdn n k c e).cache = c.take i e)) := by
  rw [ipaNatiAllocPdn]
  by_cases hfull : n-1 ≤ c.numPdns
  · rw [if_pos hfull]
    exact ⟨fun i hi => (List.not_mem_nil hi).elim,Or.inl ⟨rfl,fun hlt => absurd hfull (by omega)⟩⟩
  rw [if_neg hfull]
  have htells := allocScan_tells c.pdns e.publicIp (n-1) 0
  have htouched := allocScan_touched c.pdns e.publicIp (n-1) 0
  generalize allocScan c.pdns e.publicIp (n-1) 0 = r at htells htouched ⊢
  rcases r with ⟨i | i | _,touched⟩
  · -- the address has an entry before the first empty one
    obtain ⟨-,hi,hsame,hbefore⟩ := htells
    refine ⟨fun j hj => by have := htouched j hj; omega,Or.inl ⟨rfl,fun _ hhid => ?_⟩⟩
    obtain ⟨m,-,hm,hpass,-⟩ := hhid
    rcases lt_trichotomy i m with hlt | rfl | hlt
    · exact (hpass i hlt).2 hsame
    · rw [hm] at hsame
      exact he hsame.symm
    · exact (hbefore m (Nat.zero_le m) hlt).1 hm
  · obtain ⟨-,hi,hzero,hbefore⟩ := htells
    have hidx : (BitVec.ofNat 8 i).toNat = i := by
      rw [BitVec.toNat_ofNat]
      exact Nat.mod_eq_of_lt (by omega)
    simp only [ipaNatiModifyPdn_ok hk,hidx,if_true]
    refine ⟨fun j hj => ?_,Or.inr ⟨by omega,i,by omega,hzero,
      fun j hj => hbefore j (Nat.zero_le j) hj,rfl⟩⟩
    rcases List.mem_append.mp hj with hj | hj
    · have := htouched j hj
      omega
    · rw [List.mem_singleton.mp hj]
      omega
  · refine ⟨fun j hj => by have := htouched j hj; omega,Or.inl ⟨rfl,fun _ hhid => ?_⟩⟩
    obtain ⟨m,hm,hzero,-,j,hj,hmj,-⟩ := hhid
    exact (htells m (Nat.zero_le m) (by omega)).1 hzero

/-- A call that leaves the cache as it is can only go wrong outside the array. -/
theorem sound_of_kept (hin : ∀ i ∈ (call n c op).touched, i < n)
    (hkept : (call n c op).cache = c) : Sound n c op := by
  refine ⟨hin,fun _ i j htwins => ?_⟩
  rw [step,hkept] at htwins
  exact htwins

theorem sound_of_not_isAlloc (hop : op.2.isAlloc = false)
    (hin : ∀ i ∈ (call n c op).touched, i < n) : Sound n c op :=
  ⟨hin,fun hh => absurd hh (by simp [hop])⟩

/-- The first empty entry takes the address, so a twin of it lies behind. -/
theorem twins_taken {e : PdnEntry} {i : ℕ}
    (hbefore : ∀ j < i, Passed c.pdns e.publicIp j) {j : ℕ} (hj : j < n) (hne : j ≠ i)
    (hsame : (c.pdns j).publicIp = e.publicIp) (hzero : c.pdns i = zeroEntry) :
    Hidden n c e.publicIp := by
  have hij : i < j := by
    rcases lt_or_gt_of_ne hne with hlt | hlt
    · exact absurd hsame (hbefore j hlt).2
    · exact hlt
  exact ⟨i,by omega,hzero,hbefore,j,hj,hij,hsame⟩

theorem Hidden.first {ip : BitVec 32} (h : Hidden n c ip) {i : ℕ} (hzero : c.pdns i = zeroEntry)
    (hbefore : ∀ j < i, Passed c.pdns ip j) : ∃ j < n, i < j ∧ (c.pdns j).publicIp = ip := by
  obtain ⟨m,-,hm,hpass,j,hj,hmj,hsame⟩ := h
  rcases lt_trichotomy i m with hlt | rfl | hlt
  · exact absurd hzero (hpass i hlt).1
  · exact ⟨j,hj,hmj,hsame⟩
  · exact absurd hm (hbefore m hlt).1

theorem sound_taken_iff {k : Kernel} {e : PdnEntry} {i : ℕ} (he : e.publicIp ≠ 0)
    (hi : i < n-1) (hzero : c.pdns i = zeroEntry)
    (hbefore : ∀ j < i, Passed c.pdns e.publicIp j)
    (hin : ∀ j ∈ (ipaNatiAllocPdn n k c e).touched, j < n)
    (hcache : (ipaNatiAllocPdn n k c e).cache = c.take i e) :
    Sound n c (k,.alloc (some e) true) ↔ ¬Hidden n c e.publicIp := by
  have hstep : step n c (k,.alloc (some e) true) = c.take i e := hcache
  constructor
  · intro hs hhid
    obtain ⟨j,hj,hij,hsame⟩ := hhid.first hzero hbefore
    have htwins : Twins n (step n c (k,.alloc (some e) true)) i j := by
      rw [hstep]
      refine ⟨by omega,hj,by omega,?_,?_⟩
      · rwa [take_pdns_self]
      · rw [take_pdns_self,take_pdns_of_ne c e (by omega),hsame]
    have hip := (hs.single rfl i j htwins).2.2.2.1
    rw [hzero] at hip
    exact hip rfl
  · intro hhid
    refine ⟨hin,fun _ a b htwins => ?_⟩
    rw [hstep] at htwins
    obtain ⟨ha,hb,hab,hip,hsame⟩ := htwins
    by_cases hai : a = i
    · subst hai
      rw [take_pdns_self,take_pdns_of_ne c e hab.symm] at hsame
      exact absurd (twins_taken hbefore hb hab.symm hsame.symm hzero) hhid
    by_cases hbi : b = i
    · subst hbi
      rw [take_pdns_self,take_pdns_of_ne c e hab] at hsame
      exact absurd (twins_taken hbefore ha hab hsame hzero) hhid
    rw [take_pdns_of_ne c e hai] at hip
    rw [take_pdns_of_ne c e hai,take_pdns_of_ne c e hbi] at hsame
    exact ⟨ha,hb,hab,hip,hsame⟩

theorem ipaNatiDeallocPdn_touched {k : Kernel} (hk : k.ipaDesc = true ∧ k.ioctl = 0)
    (c : PdnCache) (pdnIndex : BitVec 8) (i : ℕ) :
    i ∈ (ipaNatiDeallocPdn k c pdnIndex).touched ↔ c.numPdns ≠ 0 ∧ i = pdnIndex.toNat := by
  rw [ipaNatiDeallocPdn,ipaNatiModifyPdn_ok hk]
  by_cases hnum : c.numPdns = 0
  · simp [hnum]
  rw [if_neg hnum]
  by_cases hzero : c.pdns pdnIndex.toNat = zeroEntry
  · simp [hzero,hnum]
  · simp [hzero,hnum]

theorem ipaNatDeallocPdn_inside_iff {k : Kernel} (hk : k.ipaDesc = true ∧ k.ioctl = 0)
    (c : PdnCache) (pdnIndex : BitVec 8) :
    (∀ i ∈ (ipaNatDeallocPdn n k c pdnIndex).touched, i < n) ↔
      (c.numPdns ≠ 0 → pdnIndex.toNat ≠ n) := by
  rw [ipaNatDeallocPdn]
  by_cases hidx : n < pdnIndex.toNat
  · rw [if_pos hidx]
    exact ⟨fun _ _ => by omega,fun _ i hi => (List.not_mem_nil hi).elim⟩
  rw [if_neg hidx]
  simp only [ipaNatiDeallocPdn_touched hk]
  constructor
  · intro hin hnum
    exact (hin _ ⟨hnum,rfl⟩).ne
  · rintro hne i ⟨hnum,rfl⟩
    have := hne hnum
    omega

theorem ipaNatModifyPdn_inside_iff {k : Kernel} (hk : k.ipaDesc = true ∧ k.ioctl = 0)
    (c : PdnCache) (tblHdl : BitVec 32) (pdnIndex : BitVec 8) (e : PdnEntry) :
    (∀ i ∈ (ipaNatModifyPdn n k c tblHdl pdnIndex (some e)).touched, i < n) ↔
      (validTblHdl tblHdl = true → pdnIndex.toNat ≠ n) := by
  rw [ipaNatModifyPdn]
  cases hhdl : validTblHdl tblHdl with
  | false => simp
  | true =>
    by_cases hidx : n < pdnIndex.toNat
    · simp only [Bool.true_eq_false,if_false,if_pos hidx,List.not_mem_nil]
      exact ⟨fun _ _ => by omega,fun _ i hi => hi.elim⟩
    · simp only [Bool.true_eq_false,if_false,if_neg hidx,ipaNatiModifyPdn_ok hk,
        List.mem_singleton,forall_eq]
      exact ⟨fun hlt _ => hlt.ne,fun hne => by have := hne trivial; omega⟩

theorem Legal.kernel (h : Legal c op) : op.1.ipaDesc = true ∧ op.1.ioctl = 0 := by
  obtain ⟨k,call⟩ := op
  rcases call with ⟨_ | e,out⟩ | i | ⟨hdl,i,info⟩
  · exact h
  · exact h.1
  · exact h
  · exact h

theorem sound_iff_suits (hn : n ≤ 256) (hl : Legal c op) : Sound n c op ↔ Suits n c op := by
  have hk := hl.kernel
  obtain ⟨k,_ | pdnIndex | ⟨tblHdl,pdnIndex,_ | e⟩⟩ := op
  case alloc pdnInfo out =>
    rcases pdnInfo with _ | e
    · exact ⟨fun _ => trivial,fun _ => sound_of_kept (fun i hi => (List.not_mem_nil hi).elim) rfl⟩
    rcases out with _ | _
    · exact ⟨fun _ => trivial,fun _ => sound_of_kept (fun i hi => (List.not_mem_nil hi).elim) rfl⟩
    obtain ⟨hin,⟨hkept,hhid⟩ | ⟨hroom,i,hi,hzero,hbefore,hcache⟩⟩ :=
      ipaNatiAllocPdn_cases hn hk c hl.2
    · exact ⟨fun _ => hhid,fun _ => sound_of_kept hin hkept⟩
    · exact (sound_taken_iff hl.2 hi hzero hbefore hin hcache).trans
        ⟨fun hhid _ => hhid,fun hhid => hhid hroom⟩
  case dealloc =>
    exact ⟨fun hs => (ipaNatDeallocPdn_inside_iff hk c pdnIndex).mp hs.inside,
      fun hne => sound_of_not_isAlloc rfl ((ipaNatDeallocPdn_inside_iff hk c pdnIndex).mpr hne)⟩
  case modify.none =>
    refine ⟨fun _ => trivial,fun _ => sound_of_not_isAlloc rfl fun i hi => ?_⟩
    simp only [call,ipaNatModifyPdn,ite_self,List.not_mem_nil] at hi
  case modify.some =>
    exact ⟨fun hs => (ipaNatModifyPdn_inside_iff hk c tblHdl pdnIndex e).mp hs.inside,
      fun hne => sound_of_not_isAlloc rfl
        ((ipaNatModifyPdn_inside_iff hk c tblHdl pdnIndex e).mpr hne)⟩

theorem mem_used {i : ℕ} : i ∈ used n c ↔ i < n ∧ c.pdns i ≠ zeroEntry := by
  simp [used]

theorem used_update_insert {e : PdnEntry} {i : ℕ} (hi : i < n) (he : e ≠ zeroEntry) :
    used n ⟨Function.update c.pdns i e,m⟩ = insert i (used n c) := by
  ext j
  rw [Finset.mem_insert,mem_used,mem_used]
  by_cases hj : j = i
  · subst hj
    simp [hi,he]
  · simp [hj]

theorem used_update_erase (c : PdnCache) (i m : ℕ) :
    used n ⟨Function.update c.pdns i zeroEntry,m⟩ = (used n c).erase i := by
  ext j
  rw [Finset.mem_erase,mem_used,mem_used]
  by_cases hj : j = i
  · subst hj
    simp
  · simp [hj]

theorem take_counted (h : Counted n c) {e : PdnEntry} {i : ℕ} (hi : i < n)
    (he : e ≠ zeroEntry) (hzero : c.pdns i = zeroEntry) : Counted n (c.take i e) := by
  rw [Counted,PdnCache.take,used_update_insert hi he,Finset.card_insert_of_notMem]
  · rw [← h]
  · exact fun hmem => (mem_used.mp hmem).2 hzero

theorem ipaNatiDeallocPdn_counted {k : Kernel} (hk : k.ipaDesc = true ∧ k.ioctl = 0)
    (h : Counted n c) {pdnIndex : BitVec 8} (hi : c.numPdns ≠ 0 → pdnIndex.toNat < n) :
    Counted n (ipaNatiDeallocPdn k c pdnIndex).cache := by
  rw [ipaNatiDeallocPdn,ipaNatiModifyPdn_ok hk]
  by_cases hnum : c.numPdns = 0
  · rwa [if_pos hnum]
  rw [if_neg hnum]
  by_cases hzero : c.pdns pdnIndex.toNat = zeroEntry
  · rwa [if_pos hzero]
  rw [if_neg hzero]
  simp only [ne_eq,not_true_eq_false,if_false,Function.update_idem]
  rw [Counted,used_update_erase,Finset.card_erase_of_mem (mem_used.mpr ⟨hi hnum,hzero⟩)]
  rw [← h]

theorem step_counted (hn : n ≤ 256) (hl : Legal c op) (hs : Suits n c op)
    (hop : op.2.isModify = false) (h : Counted n c) : Counted n (step n c op) := by
  have hk := hl.kernel
  obtain ⟨k,⟨_ | e,_ | _⟩ | pdnIndex | _⟩ := op
  case alloc.none.false => exact h
  case alloc.none.true => exact h
  case alloc.some.false => exact h
  case alloc.some.true =>
    obtain ⟨-,⟨hkept,-⟩ | ⟨-,i,hi,hzero,-,hcache⟩⟩ := ipaNatiAllocPdn_cases hn hk c hl.2
    · change Counted n (ipaNatiAllocPdn n k c e).cache
      rwa [hkept]
    · change Counted n (ipaNatiAllocPdn n k c e).cache
      rw [hcache]
      refine take_counted h (by omega) (fun he => hl.2 ?_) hzero
      rw [he]
      rfl
  case dealloc =>
    change Counted n (ipaNatDeallocPdn n k c pdnIndex).cache
    rw [ipaNatDeallocPdn]
    by_cases hidx : n < pdnIndex.toNat
    · rwa [if_pos hidx]
    · rw [if_neg hidx]
      exact ipaNatiDeallocPdn_counted hk h fun hnum => by have := hs hnum; omega
  case modify => cases hop

theorem boot_counted (n : ℕ) : Counted n boot := by
  simp [Counted,used,boot]

/-- The table's address is the first entry of a fresh cache. -/
theorem addIpv4Tbl_counted (hn : 0 < n) {publicIpAddr : BitVec 32} (hip : publicIpAddr ≠ 0) :
    Counted n (boot.addIpv4Tbl publicIpAddr) := by
  have htake : boot.addIpv4Tbl publicIpAddr = boot.take 0 ⟨publicIpAddr,0,0⟩ := rfl
  rw [htake]
  refine take_counted (boot_counted n) hn (fun he => hip ?_) rfl
  exact congrArg PdnEntry.publicIp he

/-- In a run of calls whose `ioctl` succeeds the cache keeps its promises exactly when no call
names the entry right behind the array and none allocates an address that has an entry behind
the first empty one only. -/
theorem consistent_iff (hn : n ≤ 256) (h : Counted n c) (ops : List (Kernel × PdnCall))
    (hops : Guarded (step n) Legal c ops) :
    Consistent n c ops ↔ Guarded (step n) (Suits n) c ops := by
  have hsound : Guarded (step n) (Sound n) c ops ↔ Guarded (step n) (Suits n) c ops :=
    guarded_congr (I := fun _ => True) (fun _ _ _ _ _ => trivial)
      (fun _ _ _ hl => sound_iff_suits hn hl) trivial ops hops
  constructor
  · exact fun hc => hsound.mp hc.sound
  · intro hs
    refine ⟨hsound.mpr hs,fun hall => ?_⟩
    exact guarded_always (fun _ hc => hc)
      (fun _ _ hc hg => step_counted hn hg.1 hg.2.1 hg.2.2 hc) h ops
      (hops.and (hs.and (guarded_of_forall (step n) c hall)))

instance (n : ℕ) (c : PdnCache) (i j : ℕ) : Decidable (Twins n c i j) :=
  inferInstanceAs (Decidable (_ ∧ _))

instance (n : ℕ) (c : PdnCache) (publicIp : BitVec 32) : Decidable (Hidden n c publicIp) :=
  inferInstanceAs (Decidable (∃ i < n, _))

instance (n : ℕ) (c : PdnCache) : ∀ op, Decidable (Suits n c op)
  | (_,.alloc (some e) true) =>
    inferInstanceAs (Decidable (c.numPdns < n-1 → ¬Hidden n c e.publicIp))
  | (_,.alloc none _) => isTrue trivial
  | (_,.alloc (some _) false) => isTrue trivial
  | (_,.dealloc _) => inferInstanceAs (Decidable (_ → _))
  | (_,.modify _ _ (some _)) => inferInstanceAs (Decidable (_ → _))
  | (_,.modify _ _ none) => isTrue trivial

instance (c : PdnCache) : ∀ op, Decidable (Legal c op)
  | (_,.alloc (some _) _) => inferInstanceAs (Decidable (_ ∧ _))
  | (_,.alloc none _) => inferInstanceAs (Decidable (_ ∧ _))
  | (_,.dealloc _) => inferInstanceAs (Decidable (_ ∧ _))
  | (_,.modify _ _ _) => inferInstanceAs (Decidable (_ ∧ _))

/-- Two addresses get the first two entries, one of them is released, and the second address
is allocated again. -/
def againSecond (released : BitVec 8) : List (Kernel × PdnCall) :=
  [(⟨true,0⟩,.alloc (some ⟨0x0A000001,0,0⟩) true),(⟨true,0⟩,.alloc (some ⟨0x0A000002,0,0⟩) true),
    (⟨true,0⟩,.dealloc released),(⟨true,0⟩,.alloc (some ⟨0x0A000002,0,0⟩) true)]

theorem consistent_againSecond : Consistent 16 boot (againSecond 1) :=
  (consistent_iff (by decide) (boot_counted 16) _ (by decide)).mpr (by decide)

/-- Once the first entry is released the second address gets it as well; and entry 16 of 16
is written. -/
theorem not_consistent_againSecond :
    (Guarded (step 16) Legal boot (againSecond 0) ∧ ¬Consistent 16 boot (againSecond 0)) ∧
    Guarded (step 16) Legal boot [(⟨true,0⟩,.modify 1 16 (some ⟨0x0A000001,0,0⟩))] ∧
    ¬Consistent 16 boot [(⟨true,0⟩,.modify 1 16 (some ⟨0x0A000001,0,0⟩))] := by
  refine ⟨⟨by decide,fun hc => ?_⟩,by decide,fun hc => ?_⟩
  · obtain ⟨-,-,-,⟨-,hsingle⟩,-⟩ := hc.sound
    exact absurd (hsingle rfl 0 1 (by decide)) (by decide)
  · exact absurd (hc.sound.1.inside 16 (by decide)) (by decide)

end IpaNatPdn
end MarbleModules
