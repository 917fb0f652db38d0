import MarbleModules.RmnetIngress

/-! What deaggregation takes from the pool: one descriptor for each complete frame, and one
more that nobody puts back when the skb ends between a QMAP header and its type byte. -/
namespace MarbleModules
namespace Rmnet

open Lifetimes PrefixFraming FragDescriptor

/-! ## The frames of an skb -/

/-- The fragments behind the first `start` bytes. -/
def dropFrags : ℕ → List Fragment → List Fragment
  | _,[] => []
  | start,f::fs =>
    if start < f.size then { f with off := f.off+start, size := f.size-start }::fs
    else dropFrags (start-f.size) fs

/-- The fragments of the first `n` bytes. -/
def takeFrags : ℕ → List Fragment → List Fragment
  | _,[] => []
  | n,f::fs =>
    if 0 < n then { f with size := min f.size n }::takeFrags (n-min f.size n) fs else []

/-- The descriptor with more fragments. -/
def FragDescriptor.withFrags (d : FragDescriptor) (fs : List Fragment) : FragDescriptor :=
  { d with frags := d.frags++fs, len := d.len+(fs.map Fragment.size).sum }

theorem withFrags_addFrag (d : FragDescriptor) (page : List UInt8) (off len : ℕ)
    (fs : List Fragment) :
    (d.addFrag page off len).withFrags fs = d.withFrags (⟨page,off,len⟩::fs) := by
  simp [FragDescriptor.withFrags,addFrag,Nat.add_assoc]

/-- The `n` bytes at `start`, as a descriptor has them. -/
def frameAt (rx : RxSkb) (start n : ℕ) : FragDescriptor where
  frags := takeFrags n (dropFrags start rx.skb.frags)
  len := n
  priority := rx.priority

/-- Complete frames lie between the two positions. -/
inductive Reaches (dataFormat : BitVec 32) (bs : List UInt8) : ℕ → ℕ → Prop
  | here (start : ℕ) : Reaches dataFormat bs start start
  | next {start stop n : ℕ} (hn : frameSize dataFormat (bs.drop start) = some n)
      (h : Reaches dataFormat bs (start+n) stop) : Reaches dataFormat bs start stop

/-- One of the frames from `start` on. -/
def FrameFrom (dataFormat : BitVec 32) (rx : RxSkb) (start : ℕ) (d : FragDescriptor) : Prop :=
  ∃ stop n, Reaches dataFormat rx.skb.bytes start stop ∧
    frameSize dataFormat (rx.skb.bytes.drop stop) = some n ∧ d = frameAt rx stop n

/-- Just a QMAP header is left, in a format where the byte behind it gives the length. -/
structure CutShort (dataFormat : BitVec 32) (bs : List UInt8) : Prop where
  length : bs.length = mapHeaderSize
  pktLen : mapPktLen bs ≠ 0
  cksumv4 : hasFlags dataFormat flagsIngressMapCksumv4 = false
  format : hasFlags dataFormat (privFlagsIngressMapCksumv5 ||| flagsIngressCoalesce) = true
  data : mapCdBit bs = false

def CutShortFrom (dataFormat : BitVec 32) (rx : RxSkb) (start : ℕ) : Prop :=
  ∃ stop, Reaches dataFormat rx.skb.bytes start stop ∧
    CutShort dataFormat (rx.skb.bytes.drop stop)

theorem CutShort.frameSize {dataFormat : BitVec 32} {bs : List UInt8}
    (h : CutShort dataFormat bs) : frameSize dataFormat bs = none := by
  refine if_neg ?_
  rintro ⟨-,hp,hl⟩
  rw [h.length] at hl
  omega

section From

variable {dataFormat : BitVec 32} {rx : RxSkb} {start : ℕ}

theorem reaches_iff {bs : List UInt8} {stop : ℕ} : Reaches dataFormat bs start stop ↔
    stop = start ∨ ∃ n, frameSize dataFormat (bs.drop start) = some n ∧
      Reaches dataFormat bs (start+n) stop := by
  constructor
  · intro h
    cases h with
    | here => exact .inl rfl
    | next hn h => exact .inr ⟨_,hn,h⟩
  · rintro (rfl|⟨n,hn,h⟩)
    · exact .here _
    · exact .next hn h

theorem reaches_none {bs : List UInt8} {stop : ℕ}
    (h : frameSize dataFormat (bs.drop start) = none) :
    Reaches dataFormat bs start stop ↔ stop = start := by
  rw [reaches_iff]
  simp [h]

theorem reaches_some {bs : List UInt8} {n stop : ℕ}
    (h : frameSize dataFormat (bs.drop start) = some n) :
    Reaches dataFormat bs start stop ↔ stop = start ∨ Reaches dataFormat bs (start+n) stop := by
  rw [reaches_iff]
  simp [h]

theorem frameFrom_none (h : frameSize dataFormat (rx.skb.bytes.drop start) = none)
    (d : FragDescriptor) : ¬FrameFrom dataFormat rx start d := by
  rintro ⟨stop,n,hr,hn,-⟩
  obtain rfl := (reaches_none h).mp hr
  simp [h] at hn

theorem frameFrom_some {n : ℕ} (h : frameSize dataFormat (rx.skb.bytes.drop start) = some n)
    (d : FragDescriptor) : FrameFrom dataFormat rx start d ↔
      d = frameAt rx start n ∨ FrameFrom dataFormat rx (start+n) d := by
  constructor
  · rintro ⟨stop,m,hr,hm,rfl⟩
    rcases (reaches_some h).mp hr with rfl|hr
    · obtain rfl : n = m := Option.some.inj (h.symm.trans hm)
      exact .inl rfl
    · exact .inr ⟨stop,m,hr,hm,rfl⟩
  · rintro (rfl|⟨stop,m,hr,hm,rfl⟩)
    · exact ⟨start,n,.here start,h,rfl⟩
    · exact ⟨stop,m,.next h hr,hm,rfl⟩

theorem cutShortFrom_none (h : frameSize dataFormat (rx.skb.bytes.drop start) = none) :
    CutShortFrom dataFormat rx start ↔ CutShort dataFormat (rx.skb.bytes.drop start) := by
  simp [CutShortFrom,reaches_none h]

theorem cutShortFrom_some {n : ℕ}
    (h : frameSize dataFormat (rx.skb.bytes.drop start) = some n) :
    CutShortFrom dataFormat rx start ↔ CutShortFrom dataFormat rx (start+n) := by
  constructor
  · rintro ⟨stop,hr,hc⟩
    rcases (reaches_some h).mp hr with rfl|hr
    · have hnone := hc.frameSize
      simp [h] at hnone
    · exact ⟨stop,hr,hc⟩
  · rintro ⟨stop,hr,hc⟩
    exact ⟨stop,.next h hr,hc⟩

end From

/-! ## Slices of the fragments -/

theorem sizes_takeFrags (n : ℕ) (fs : List Fragment) :
    ((takeFrags n fs).map Fragment.size).sum = min n (fs.map Fragment.size).sum := by
  induction fs generalizing n with
  | nil => simp [takeFrags]
  | cons f fs ih =>
    rw [takeFrags]
    split_ifs with hn
    · simp only [List.map_cons,List.sum_cons,ih]
      omega
    · simp only [List.map_nil,List.sum_nil]
      omega

theorem fits_takeFrags {fs : List Fragment} (h : ∀ f ∈ fs, f.Fits) (n : ℕ) :
    ∀ f ∈ takeFrags n fs, f.Fits := by
  induction fs generalizing n with
  | nil => simp [takeFrags]
  | cons f fs ih =>
    rw [takeFrags]
    split_ifs
    · intro g hg
      rcases List.mem_cons.mp hg with rfl|hg
      · have hpart := (h f (by simp)).part (k := 0) (n := min f.size n) (by omega)
        exact hpart
      · exact ih (fun g hg => h g (by simp [hg])) _ g hg
    · simp

theorem contents_takeFrags {fs : List Fragment} (h : ∀ f ∈ fs, f.Fits) (n : ℕ) :
    contents (takeFrags n fs) = (contents fs).take n := by
  induction fs generalizing n with
  | nil => simp [takeFrags]
  | cons f fs ih =>
    have hlen := (h f (by simp)).length_bytes
    rw [takeFrags]
    split_ifs with hn
    · have hcut : Fragment.bytes { f with size := min f.size n } = f.bytes.take n := by
        simp only [Fragment.bytes]
        rw [List.take_take,Nat.min_comm]
      rw [contents_cons,contents_cons,hcut,ih (fun g hg => h g (by simp [hg])),
        List.take_append,hlen]
      congr 2
      omega
    · obtain rfl : n = 0 := by omega
      simp

theorem dropFrags_append (before after : List Fragment) {f : Fragment} {k : ℕ}
    (hk : k < f.size) :
    dropFrags ((before.map Fragment.size).sum+k) (before++f::after) =
      ⟨f.page,f.off+k,f.size-k⟩::after := by
  induction before with
  | nil => simp [dropFrags,hk]
  | cons g before ih =>
    simp only [List.cons_append,dropFrags,List.map_cons,List.sum_cons]
    rw [if_neg (by omega),← ih]
    congr 1
    omega

theorem StartsIn.dropFrags {skbCopyBits : Skb → ℕ → ℕ → Option (List UInt8)} {skb : Skb}
    {start : ℕ} {before after : List Fragment} {f : Fragment} {k : ℕ}
    (h : StartsIn skbCopyBits skb start before f after k) :
    dropFrags start skb.frags = ⟨f.page,f.off+k,f.size-k⟩::after := by
  rw [h.frags,h.start_eq]
  exact dropFrags_append before after h.lt

theorem StartsIn.fits {skbCopyBits : Skb → ℕ → ℕ → Option (List UInt8)} {skb : Skb}
    {start : ℕ} {before after : List Fragment} {f : Fragment} {k : ℕ}
    (h : StartsIn skbCopyBits skb start before f after k) :
    ∀ g ∈ (⟨f.page,f.off+k,f.size-k⟩::after : List Fragment), g.Fits := by
  have hfits : ∀ g ∈ before++f::after, g.Fits := h.frags ▸ skb.fits
  intro g hg
  rcases List.mem_cons.mp hg with rfl|hg
  · have hlt := h.lt
    exact (hfits f (by simp)).part (by omega)
  · exact hfits g (by simp [hg])

/-- A complete frame is well formed and holds its bytes. -/
theorem frameAt_wf {rx : RxSkb} {dataFormat : BitVec 32} {start n : ℕ}
    (h : frameSize dataFormat (rx.skb.bytes.drop start) = some n) :
    (frameAt rx start n).Wf ∧
      (frameAt rx start n).bytes = (rx.skb.bytes.drop start).take n := by
  have hlen : rx.skb.bytes.length = rx.skb.len := length_contents rx.skb.fits
  have hle : n ≤ (rx.skb.bytes.drop start).length := (qmap dataFormat).size_le h
  have hpos : 0 < n := (qmap dataFormat).size_pos h
  have hstart : start < rx.skb.len := by
    rw [List.length_drop] at hle
    omega
  obtain ⟨before,f,after,k,hat⟩ := startsIn copiesBits_walkCopyBits rx.skb hstart
  have hfits := hat.fits
  have hrest := hat.rest
  rw [hrest,length_contents hfits] at hle
  rw [← hat.dropFrags] at hfits hle hrest
  refine ⟨⟨fits_takeFrags hfits n,?_⟩,?_⟩
  · change n = _
    rw [frameAt,sizes_takeFrags,Nat.min_eq_left hle]
  · change contents (takeFrags n _) = _
    rw [contents_takeFrags hfits,hrest]

/-! ## One frame -/

/-- The header has its length unless the type byte is the one thing missing. -/
theorem frameLength_none_iff (dataFormat : BitVec 32) {rest : List UInt8}
    (hl : mapHeaderSize ≤ rest.length) (hp : mapPktLen rest ≠ 0) :
    frameLength dataFormat (rest.take mapHeaderSize)
        (if mapHeaderSize+1 ≤ rest.length then some (rest.getD mapHeaderSize 0) else none) =
      none ↔ CutShort dataFormat rest := by
  have hc : mapCdBit (rest.take mapHeaderSize) = mapCdBit rest := by
    rw [mapCdBit,mapCdBit,getD_take (by decide)]
  constructor
  · intro h
    have hle := frameLength_none dataFormat h
    simp only [frameLength,hc] at h
    split_ifs at h with h4 h5
    · omega
    · rw [Bool.and_eq_true,Bool.not_eq_true'] at h5
      exact ⟨by omega,hp,by simpa using h4,h5.1,h5.2⟩
  · intro h
    have hlen := h.length
    rw [if_neg (by omega)]
    simp [frameLength,hc,h.cksumv4,h.format,h.data]

namespace Ingress

variable {skbCopyBits : Skb → ℕ → ℕ → Option (List UInt8)} {alloc : ℕ → Bool}
variable {held : Finset ℕ}

/-- The loop fills the descriptor with the front of the fragments, or runs out of memory. -/
theorem addPacketFrags_leaves {id : ℕ} (hid : id ∈ held) (d : FragDescriptor)
    (frags : List Fragment) (n : ℕ) :
    Leaves DescPool.Sound held (addPacketFrags alloc id d frags n) fun r held' =>
      held' = held ∧ (r = none ∧ ¬(∀ k, alloc k = true) ∨
        r = some (d.withFrags (takeFrags n frags),n-(frags.map Fragment.size).sum)) := by
  induction frags generalizing d n with
  | nil => exact .pure ⟨rfl,.inr (by simp [takeFrags,FragDescriptor.withFrags])⟩
  | cons f frags ih =>
    rw [addPacketFrags,takeFrags]
    split_ifs with hn
    · refine (use_leaves hid).bind ?_
      rintro _ _ rfl
      refine allocate_leaves.bind ?_
      rintro b _ ⟨rfl,hb⟩
      cases b with
      | false => exact .pure ⟨rfl,.inl ⟨rfl,fun h => by simpa using hb h⟩⟩
      | true =>
        refine (ih _ _).imp ?_
        rintro r _ ⟨rfl,hr⟩
        refine ⟨rfl,hr.imp_right fun hr => ?_⟩
        rw [hr,withFrags_addFrag,List.map_cons,List.sum_cons]
        congr 2
        omega
    · obtain rfl : n = 0 := by omega
      exact .pure ⟨rfl,.inr (by simp [FragDescriptor.withFrags])⟩

/-- What one call leaves: a frame more, nothing, or a descriptor that is lost. -/
inductive OneFrame (alloc : ℕ → Bool) (dataFormat : BitVec 32) (rx : RxSkb) (start : ℕ)
    (held : Finset ℕ) : Option Owned → Finset ℕ → Prop
  | cut {id n : ℕ} (hn : frameSize dataFormat (rx.skb.bytes.drop start) = some n)
      (hid : id ∉ held) :
      OneFrame alloc dataFormat rx start held (some ⟨id,frameAt rx start n⟩) (insert id held)
  | stopped (h : (∀ k, alloc k = true) →
        frameSize dataFormat (rx.skb.bytes.drop start) = none ∧
          ¬CutShort dataFormat (rx.skb.bytes.drop start)) :
      OneFrame alloc dataFormat rx start held none held
  | lost {id : ℕ} (h : CutShort dataFormat (rx.skb.bytes.drop start)) (hid : id ∉ held) :
      OneFrame alloc dataFormat rx start held none (insert id held)

theorem deaggregateOne_leaves (hcopy : CopiesBits skbCopyBits) (dataFormat : BitVec 32)
    (rx : RxSkb) {start : ℕ} (hstart : start < rx.skb.len) :
    Leaves DescPool.Sound held
      (deaggregateOne skbCopyBits alloc dataFormat rx.skb start rx.priority)
      (OneFrame alloc dataFormat rx start held) := by
  obtain ⟨before,f,after,k,hat⟩ := startsIn hcopy rx.skb hstart
  have hget : rx.skb.frags[before.length]? = some f := by rw [hat.frags]; simp
  have hko : start-(before.map Fragment.size).sum = k := by
    have hs := hat.start_eq
    omega
  have hafter : rx.skb.frags.drop (before.length+1) = after := by
    rw [hat.frags,← List.drop_drop,List.drop_left]
    rfl
  have hdrop := hat.dropFrags
  have hsum : ((dropFrags start rx.skb.frags).map Fragment.size).sum =
      (rx.skb.bytes.drop start).length := by
    rw [hdrop,hat.rest,length_contents hat.fits]
  simp only [deaggregateOne,hat.found,hget,hko,hafter]
  rw [hat.type,hat.header,← hdrop]
  have hp : mapPktLen ((rx.skb.bytes.drop start).take mapHeaderSize) =
      mapPktLen (rx.skb.bytes.drop start) := mapPktLen_congr fun k hk => getD_take hk
  by_cases h4 : mapHeaderSize ≤ (rx.skb.bytes.drop start).length
  swap
  · rw [if_neg h4]
    exact .pure (.stopped fun _ => ⟨if_neg fun hc => h4 hc.1,fun hc => h4 hc.length.ge⟩)
  rw [if_pos h4]
  simp only [hp]
  by_cases h0 : mapPktLen (rx.skb.bytes.drop start) = 0
  · rw [if_pos h0]
    exact .pure (.stopped fun _ => ⟨if_neg fun hc => hc.2.1 h0,fun hc => hc.pktLen h0⟩)
  rw [if_neg h0]
  refine getFragDescriptor_leaves.bind ?_
  rintro r held' ⟨hsome,hnone⟩
  cases r with
  | none =>
    obtain ⟨rfl,ha⟩ := hnone rfl
    exact .pure (.stopped fun h => absurd h ha)
  | some id =>
    obtain ⟨hid,rfl⟩ := hsome id rfl
    have hmem : id ∈ insert id held := Finset.mem_insert_self id held
    refine (use_leaves hmem).bind ?_
    rintro _ _ rfl
    cases hfl : frameLength dataFormat ((rx.skb.bytes.drop start).take mapHeaderSize)
        (if mapHeaderSize+1 ≤ (rx.skb.bytes.drop start).length then
          some ((rx.skb.bytes.drop start).getD mapHeaderSize 0) else none) with
    | none => exact .pure (.lost ((frameLength_none_iff dataFormat h4 h0).mp hfl) hid)
    | some n =>
      have hn := frameLength_eq dataFormat n hfl
      have hwhole : ¬CutShort dataFormat (rx.skb.bytes.drop start) := by
        rw [← frameLength_none_iff dataFormat h4 h0,hfl]
        simp
      have hback : (insert id held).erase id = held := Finset.erase_insert hid
      refine (addPacketFrags_leaves hmem _ _ n).bind ?_
      rintro _ _ ⟨rfl,⟨rfl,ha⟩|rfl⟩
      · refine (recycle_pure_leaves hmem none).imp ?_
        rintro _ _ ⟨rfl,rfl⟩
        rw [hback]
        exact .stopped fun h => absurd h ha
      · by_cases hfit : n ≤ (rx.skb.bytes.drop start).length
        · have hs : frameSize dataFormat (rx.skb.bytes.drop start) = some n :=
            frameSize_some.mpr ⟨h4,h0,hfit,hn⟩
          have hlen := sizes_takeFrags n (dropFrags start rx.skb.frags)
          simp only [FragDescriptor.withFrags,hsum,hlen,Nat.sub_eq_zero_of_le hfit,
            Nat.min_eq_left hfit,if_true,List.nil_append,Nat.zero_add]
          exact .pure (.cut hs hid)
        · simp only [hsum]
          rw [if_neg (by omega)]
          refine (recycle_pure_leaves hmem none).imp ?_
          rintro _ _ ⟨rfl,rfl⟩
          rw [hback]
          exact .stopped fun _ => ⟨if_neg fun hc => by omega,hwhole⟩

/-! ## The whole skb -/

/-- What deaggregation from `start` on leaves: descriptors of frames, and `rest` of what was
held before, with one more when the skb is cut short. -/
structure AllFrames (alloc : ℕ → Bool) (dataFormat : BitVec 32) (rx : RxSkb) (start : ℕ)
    (held rest : Finset ℕ) (os : List Owned) : Prop where
  frames : ∀ o ∈ os, FrameFrom dataFormat rx start o.desc
  kept : rest = held ∨ CutShortFrom dataFormat rx start ∧ ∃ id ∉ held, rest = insert id held
  all : (∀ k, alloc k = true) →
    (∀ d, FrameFrom dataFormat rx start d → ∃ o ∈ os, o.desc = d) ∧
    (CutShortFrom dataFormat rx start → rest ≠ held)

theorem deaggregateFrom_leaves (hcopy : CopiesBits skbCopyBits) (dataFormat : BitVec 32)
    (rx : RxSkb) (base : Finset ℕ) (fuel start : ℕ) (hfuel : rx.skb.len-start < fuel)
    (list : List Owned) (hlist : HandsBack base (list.map Owned.id) held) :
    Leaves DescPool.Sound held (deaggregateFrom skbCopyBits alloc dataFormat rx fuel start list)
      fun r held' => ∃ os rest, r = some (list++os) ∧
        HandsBack rest ((list++os).map Owned.id) held' ∧
        AllFrames alloc dataFormat rx start base rest os := by
  have hlen : rx.skb.bytes.length = rx.skb.len := length_contents rx.skb.fits
  induction fuel generalizing start list held with
  | zero => omega
  | succ fuel ih =>
    rw [deaggregateFrom]
    by_cases hstart : start < rx.skb.len
    · rw [if_pos hstart]
      refine (deaggregateOne_leaves hcopy dataFormat rx hstart).bind ?_
      intro r held' hone
      cases hone with
      | @cut id n hn hid =>
        have hpos : 0 < n := (qmap dataFormat).size_pos hn
        have hl := hlist.snoc hid
        refine (ih (start+n) (by omega) (list++[⟨id,frameAt rx start n⟩])
          (by simpa using hl)).imp ?_
        rintro _ held'' ⟨os,rest,rfl,hholds,hall⟩
        refine ⟨⟨id,frameAt rx start n⟩::os,rest,by simp,by simpa using hholds,?_,?_,?_⟩
        · intro o ho
          rw [frameFrom_some hn]
          rcases List.mem_cons.mp ho with rfl|ho
          · exact .inl rfl
          · exact .inr (hall.frames o ho)
        · rw [cutShortFrom_some hn]
          exact hall.kept
        · intro ha
          rw [cutShortFrom_some hn]
          refine ⟨fun d hd => ?_,(hall.all ha).2⟩
          rcases (frameFrom_some hn d).mp hd with rfl|hd
          · exact ⟨_,List.mem_cons_self,rfl⟩
          · obtain ⟨o,ho,hod⟩ := (hall.all ha).1 d hd
            exact ⟨o,List.mem_cons_of_mem _ ho,hod⟩
      | stopped h =>
        refine .pure ⟨[],base,by simp,by simpa using hlist,by simp,.inl rfl,fun ha => ?_⟩
        obtain ⟨hnone,hcut⟩ := h ha
        exact ⟨fun d hd => absurd hd (frameFrom_none hnone d),
          fun hc => absurd ((cutShortFrom_none hnone).mp hc) hcut⟩
      | @lost id h hid =>
        have hnone := h.frameSize
        have hbase : id ∉ base := fun hm => hid (hlist.subset hm)
        refine .pure ⟨[],insert id base,by simp,by simpa using hlist.keep hid,by simp,
          .inr ⟨(cutShortFrom_none hnone).mpr h,id,hbase,rfl⟩,fun _ => ?_⟩
        exact ⟨fun d hd => absurd hd (frameFrom_none hnone d),
          fun _ heq => hbase (heq ▸ Finset.mem_insert_self id base)⟩
    · rw [if_neg hstart]
      have hnil : rx.skb.bytes.drop start = [] := List.drop_of_length_le (by omega)
      have hnone : frameSize dataFormat (rx.skb.bytes.drop start) = none := by
        rw [hnil]
        simp [frameSize,mapHeaderSize]
      refine .pure ⟨[],base,by simp,by simpa using hlist,by simp,.inl rfl,fun _ => ?_⟩
      refine ⟨fun d hd => absurd hd (frameFrom_none hnone d),fun hc => ?_⟩
      have hshort := ((cutShortFrom_none hnone).mp hc).length
      rw [hnil] at hshort
      exact absurd hshort (by decide)

/-- Deaggregation ends; the descriptors it appends hold frames, all of them when there is
memory. -/
theorem deaggregate_leaves (hcopy : CopiesBits skbCopyBits) (dataFormat : BitVec 32)
    (rx : RxSkb) :
    Leaves DescPool.Sound held (deaggregate skbCopyBits alloc dataFormat rx) fun r held' =>
      ∃ os rest, r = some os ∧ HandsBack rest (os.map Owned.id) held' ∧
        AllFrames alloc dataFormat rx 0 held rest os := by
  refine (deaggregateFrom_leaves hcopy dataFormat rx held (rx.skb.len+1) 0 (by omega) []
    (show HandsBack held [] held from rfl)).imp ?_
  rintro _ held' ⟨os,rest,rfl,hholds,hall⟩
  exact ⟨os,rest,rfl,hholds,hall⟩

end Ingress
end Rmnet
end MarbleModules
