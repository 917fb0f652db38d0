import MarbleModules.RmnetDeaggregate

/-! Deaggregation partitions the buffer: the descriptors hold the complete QMAP frames at
its front, in order, and the splitting into fragments plays no part in it. -/
namespace MarbleModules
namespace Rmnet

open PrefixFraming FragDescriptor

/-! ## The frame format -/

/-- What a frame has besides the QMAP header and `pkt_len` bytes: the checksum trailer, or
the second header its type byte asks for. -/
def overhead (dataFormat : BitVec 32) (frame : List UInt8) : ℕ :=
  if hasFlags dataFormat flagsIngressMapCksumv4 then dlCsumTrailerSize
  else if hasFlags dataFormat (privFlagsIngressMapCksumv5 ||| flagsIngressCoalesce) &&
      !mapCdBit frame then v5HeaderSize (frame.getD mapHeaderSize 0)
  else 0

/-- A complete frame: the header, a nonzero `pkt_len`, that many bytes, the overhead. -/
structure IsQmapFrame (dataFormat : BitVec 32) (frame : List UInt8) : Prop where
  header : mapHeaderSize ≤ frame.length
  pktLen : mapPktLen frame ≠ 0
  length : frame.length = mapHeaderSize+mapPktLen frame+overhead dataFormat frame

theorem mapPktLen_congr {xs ys : List UInt8} (h : ∀ k < 4, xs.getD k 0 = ys.getD k 0) :
    mapPktLen xs = mapPktLen ys := by
  rw [mapPktLen,mapPktLen,h 2 (by decide),h 3 (by decide)]

theorem overhead_congr {xs ys : List UInt8} (dataFormat : BitVec 32)
    (h : ∀ k < 5, xs.getD k 0 = ys.getD k 0) :
    overhead dataFormat xs = overhead dataFormat ys := by
  have hc : mapCdBit xs = mapCdBit ys := by rw [mapCdBit,mapCdBit,h 0 (by decide)]
  have ht : xs.getD mapHeaderSize 0 = ys.getD mapHeaderSize 0 := h 4 (by decide)
  simp only [overhead,hc,ht]

theorem getD_take {xs : List UInt8} {n k : ℕ} (h : k < n) :
    (xs.take n).getD k 0 = xs.getD k 0 := by
  simp [List.getD_eq_getElem?_getD,List.getElem?_take_of_lt h]

theorem getD_append {xs : List UInt8} (ys : List UInt8) {k : ℕ} (h : k < xs.length) :
    (xs++ys).getD k 0 = xs.getD k 0 := by
  simp [List.getD_eq_getElem?_getD,List.getElem?_append_left h]

theorem getD_drop (xs : List UInt8) (n k : ℕ) : (xs.drop n).getD k 0 = xs.getD (n+k) 0 := by
  simp [List.getD_eq_getElem?_getD,List.getElem?_drop]

/-- The size of the complete frame at the front of the bytes. -/
def frameSize (dataFormat : BitVec 32) (xs : List UInt8) : Option ℕ :=
  let n := mapHeaderSize+mapPktLen xs+overhead dataFormat xs
  if mapHeaderSize ≤ xs.length ∧ mapPktLen xs ≠ 0 ∧ n ≤ xs.length then some n else none

theorem frameSize_some {dataFormat : BitVec 32} {xs : List UInt8} {n : ℕ} :
    frameSize dataFormat xs = some n ↔ mapHeaderSize ≤ xs.length ∧ mapPktLen xs ≠ 0 ∧
      n ≤ xs.length ∧ n = mapHeaderSize+mapPktLen xs+overhead dataFormat xs := by
  simp only [frameSize]
  constructor
  · intro h
    split_ifs at h with hc
    obtain rfl := Option.some.inj h
    exact ⟨hc.1,hc.2.1,hc.2.2,rfl⟩
  · rintro ⟨h1,h2,h3,rfl⟩
    exact if_pos ⟨h1,h2,h3⟩

/-- Whether a frame is complete is decided by its own bytes. -/
theorem frameSize_congr {dataFormat : BitVec 32} {xs ys : List UInt8} {n : ℕ}
    (h : frameSize dataFormat xs = some n) (hn : n ≤ ys.length)
    (hxy : ∀ k < n, xs.getD k 0 = ys.getD k 0) : frameSize dataFormat ys = some n := by
  obtain ⟨h1,h2,-,hs⟩ := frameSize_some.mp h
  have h5 : 5 ≤ n := by
    rw [hs,mapHeaderSize]
    omega
  have hp := mapPktLen_congr fun k hk => hxy k (by omega)
  have ho := overhead_congr dataFormat fun k hk => hxy k (by omega)
  refine frameSize_some.mpr ⟨?_,hp ▸ h2,hn,by rw [hs,hp,ho]⟩
  rw [mapHeaderSize]
  omega

/-- QMAP framing for a port data format. -/
def qmap (dataFormat : BitVec 32) : Framer UInt8 where
  size := frameSize dataFormat
  size_pos h := by
    obtain ⟨-,-,-,rfl⟩ := frameSize_some.mp h
    rw [mapHeaderSize]
    omega
  size_le h := (frameSize_some.mp h).2.2.1
  size_take h := by
    have hl := (frameSize_some.mp h).2.2.1
    exact frameSize_congr h (by simp [hl]) fun k hk => (getD_take hk).symm
  size_append ys h := by
    have hl := (frameSize_some.mp h).2.2.1
    exact frameSize_congr h (by simp; omega) fun k hk => (getD_append ys (by omega)).symm

theorem isFrame_qmap {dataFormat : BitVec 32} {frame : List UInt8} :
    (qmap dataFormat).IsFrame frame ↔ IsQmapFrame dataFormat frame := by
  refine frameSize_some.trans ⟨?_,?_⟩
  · rintro ⟨h1,h2,-,h3⟩
    exact ⟨h1,h2,h3⟩
  · rintro ⟨h1,h2,h3⟩
    exact ⟨h1,h2,le_refl _,h3⟩

/-! ## The fragment a frame starts in -/

theorem findStartFrag_spec (fs : List Fragment) {start i o : ℕ} (h : o ≤ start)
    (hs : start < o+(fs.map Fragment.size).sum) :
    ∃ before f after, fs = before++f::after ∧
      findStartFrag start fs i o =
        (i+before.length,o+(before.map Fragment.size).sum) ∧
      o+(before.map Fragment.size).sum ≤ start ∧
      start < o+(before.map Fragment.size).sum+f.size := by
  induction fs generalizing i o with
  | nil =>
    simp only [List.map_nil,List.sum_nil] at hs
    omega
  | cons f fs ih =>
    rw [List.map_cons,List.sum_cons] at hs
    simp only [findStartFrag]
    split_ifs with hc
    · exact ⟨[],f,fs,rfl,by simp,by simpa using h,by simp; omega⟩
    · obtain ⟨before,g,after,rfl,h1,h2,h3⟩ :=
        ih (i := i+1) (o := o+f.size) (by omega) (by omega)
      refine ⟨f::before,g,after,rfl,?_,?_,?_⟩
      · rw [h1]
        simp only [List.length_cons,List.map_cons,List.sum_cons,Prod.mk.injEq]
        omega
      · simp only [List.map_cons,List.sum_cons]
        omega
      · simp only [List.map_cons,List.sum_cons]
        omega

/-- What is left of the buffer at `start`: the rest of one fragment and those after it. -/
theorem drop_contents {before after : List Fragment} {f : Fragment}
    (hb : ∀ g ∈ before, g.Fits) (hf : f.Fits) {k : ℕ} (hk : k ≤ f.size) :
    (contents (before++f::after)).drop ((before.map Fragment.size).sum+k) =
      contents (⟨f.page,f.off+k,f.size-k⟩::after) := by
  rw [contents_append,← length_contents hb,List.drop_length_add_append,contents_cons,
    contents_cons,List.drop_append_of_le_length (by rw [hf.length_bytes]; exact hk)]
  congr 1
  simp only [Fragment.bytes]
  rw [List.drop_take,List.drop_drop]

/-! ## The loop that adds the fragments -/

/-- The fragments as the loop sees them: at `startFrag` the size and the page offset are
those of the part not used yet. -/
def seenFrag (startFrag startFragSize startFragOff i : ℕ) (f : Fragment) : Fragment :=
  ⟨f.page,if i = startFrag then startFragOff else f.off,
    if i = startFrag then startFragSize else f.size⟩

theorem seenFrag_ne {startFrag i : ℕ} (size off : ℕ) (h : i ≠ startFrag) :
    seenFrag startFrag size off i = id := by
  funext f
  simp [seenFrag,h]

theorem addPacketFrags_spec {frags gs : List Fragment} {startFrag size off : ℕ}
    (hg : ∀ i, gs[i]? = frags[i]?.map (seenFrag startFrag size off i))
    (i : ℕ) (hfit : ∀ g ∈ gs.drop i, g.Fits) (fuel : ℕ) (hfuel : gs.length-i < fuel)
    {d : FragDescriptor} (hd : d.Wf) (pktLen : ℕ) :
    ∃ e, addPacketFrags frags startFrag size off fuel d i pktLen 0 =
        some (e,pktLen-(contents (gs.drop i)).length) ∧
      e.bytes = d.bytes++(contents (gs.drop i)).take pktLen ∧ e.Wf ∧ SameMeta d e := by
  induction fuel generalizing i d pktLen with
  | zero => omega
  | succ fuel ih =>
    simp only [addPacketFrags]
    by_cases hp : 0 < pktLen
    swap
    · obtain rfl : pktLen = 0 := by omega
      exact ⟨d,by simp,by simp,hd,SameMeta.refl d⟩
    rw [if_pos hp]
    cases hf : frags[i]? with
    | none =>
      have hn : gs[i]? = none := by rw [hg i,hf]; rfl
      have hdr : gs.drop i = [] := List.drop_of_length_le (List.getElem?_eq_none_iff.mp hn)
      exact ⟨d,by simp [hdr],by simp [hdr],hd,SameMeta.refl d⟩
    | some f =>
      have hs : gs[i]? = some (seenFrag startFrag size off i f) := by rw [hg i,hf]; rfl
      obtain ⟨hi,hgi⟩ := List.getElem?_eq_some_iff.mp hs
      have hdr : gs.drop i = seenFrag startFrag size off i f::gs.drop (i+1) := by
        rw [List.drop_eq_getElem_cons hi,hgi]
      have hsf : (seenFrag startFrag size off i f).Fits := hfit _ (by simp [hdr])
      have hb := hsf.length_bytes
      have hfit' : ∀ g ∈ gs.drop (i+1), g.Fits := fun g hgm => hfit g (by simp [hdr,hgm])
      generalize hgg : seenFrag startFrag size off i f = g at *
      have hgs : (if i = startFrag then size else f.size) = g.size := by rw [← hgg]; rfl
      have hgo : (if i = startFrag then off else f.off) = g.off := by rw [← hgg]; rfl
      have hgp : f.page = g.page := by rw [← hgg]; rfl
      rw [hdr,contents_cons,List.length_append,hb]
      simp only [hgs,hgo,hgp]
      have hadd := bytes_addFrag d (f := g) (k := 0) (n := min g.size pktLen) (by omega)
      have hwf := hd.addFrag hsf (k := 0) (n := min g.size pktLen) (by omega)
      rw [Nat.add_zero,List.drop_zero] at hadd
      rw [Nat.add_zero] at hwf
      split_ifs with hc
      · -- the fragment is used up, the loop goes on with the next one
        obtain ⟨e,he,hbe,hwe,hse⟩ :=
          ih (i+1) hfit' (by omega) hwf (pktLen-min g.size pktLen)
        have hm : min g.size pktLen = g.size := by omega
        refine ⟨e,?_,?_,hwe,(sameMeta_addFrag ..).trans hse⟩
        · rw [he,hm,Nat.sub_sub]
        · have h1 : g.bytes.take g.size = g.bytes := List.take_of_length_le hb.le
          have h2 : g.bytes.take pktLen = g.bytes := List.take_of_length_le (by omega)
          rw [hbe,hadd,hm,List.append_assoc,List.take_append,hb,h1,h2]
      · -- the packet ends within the fragment
        have hm : min g.size pktLen = pktLen := by omega
        have hlast : addPacketFrags frags startFrag size off fuel
            (d.addFrag g.page g.off (min g.size pktLen)) i (pktLen-min g.size pktLen)
            (0+min g.size pktLen) =
              some (d.addFrag g.page g.off (min g.size pktLen),0) := by
          obtain ⟨m,rfl⟩ : ∃ m, fuel = m+1 := ⟨fuel-1,by omega⟩
          rw [hm,Nat.sub_self,addPacketFrags,if_neg (by omega)]
        refine ⟨_,hlast.trans ?_,?_,hwf,sameMeta_addFrag ..⟩
        · rw [show pktLen-(g.size+(contents (gs.drop (i+1))).length) = 0 by omega]
        · rw [hadd,hm,List.take_append_of_le_length (by omega)]

/-! ## One frame -/

/-- The type byte is the fifth byte of the rest, however it is read. -/
theorem typeByte_eq {skbCopyBits : Skb → ℕ → ℕ → Option (List UInt8)}
    (hcopy : CopiesBits skbCopyBits) (skb : Skb) {start k : ℕ} {f : Fragment}
    {after : List Fragment} (hstart : start < skb.len) (hk : k < f.size) (hf : f.Fits)
    (hrest : skb.bytes.drop start = contents (⟨f.page,f.off+k,f.size-k⟩::after)) :
    typeByte skbCopyBits skb f start (f.size-k) (f.off+k) =
      if mapHeaderSize+1 ≤ (skb.bytes.drop start).length then
        some ((skb.bytes.drop start).getD mapHeaderSize 0)
      else none := by
  have hlen : skb.bytes.length = skb.len := length_contents skb.fits
  have hg : Fragment.Fits ⟨f.page,f.off+k,f.size-k⟩ := hf.part (by omega)
  have hbl : (Fragment.bytes ⟨f.page,f.off+k,f.size-k⟩).length = f.size-k := hg.length_bytes
  unfold typeByte
  split_ifs with h1 h2 h2
  · have hm : mapHeaderSize < (Fragment.bytes ⟨f.page,f.off+k,f.size-k⟩).length := by omega
    rw [hrest,contents_cons,getD_append _ hm,Fragment.bytes,
      getD_take (by change mapHeaderSize < f.size-k; omega)]
  · refine absurd ?_ h2
    rw [hrest,contents_cons,List.length_append,hbl]
    omega
  · rw [List.length_drop] at h2
    rw [hcopy,if_pos (by omega),Option.map_some,getD_take (by omega),getD_drop,getD_drop]
    simp
  · rw [List.length_drop] at h2
    rw [hcopy,if_neg (by omega)]
    rfl

theorem frameLength_eq (dataFormat : BitVec 32) {rest : List UInt8} (n : ℕ) :
    frameLength dataFormat (rest.take mapHeaderSize)
        (if mapHeaderSize+1 ≤ rest.length then some (rest.getD mapHeaderSize 0) else none) =
      some n → n = mapHeaderSize+mapPktLen rest+overhead dataFormat rest := by
  have hp : mapPktLen (rest.take mapHeaderSize) = mapPktLen rest :=
    mapPktLen_congr fun k hk => getD_take hk
  have hc : mapCdBit (rest.take mapHeaderSize) = mapCdBit rest := by
    rw [mapCdBit,mapCdBit,getD_take (by decide)]
  simp only [frameLength,overhead,hp,hc]
  intro h
  split_ifs at h ⊢ <;> simp only [Option.map_some,Option.map_none,Option.some.injEq,
    reduceCtorEq] at h <;> omega

theorem frameLength_none (dataFormat : BitVec 32) {rest : List UInt8}
    (h : frameLength dataFormat (rest.take mapHeaderSize)
      (if mapHeaderSize+1 ≤ rest.length then some (rest.getD mapHeaderSize 0) else none) =
        none) : rest.length ≤ mapHeaderSize := by
  by_contra hlen
  rw [if_pos (by omega)] at h
  simp only [frameLength] at h
  split_ifs at h
  simp at h

/-- Where `start` lies in the skb, and what the code reads there. -/
structure StartsIn (skbCopyBits : Skb → ℕ → ℕ → Option (List UInt8)) (skb : Skb) (start : ℕ)
    (before : List Fragment) (f : Fragment) (after : List Fragment) (k : ℕ) : Prop where
  frags : skb.frags = before++f::after
  start_eq : start = (before.map Fragment.size).sum+k
  lt : k < f.size
  found : findStartFrag start skb.frags 0 0 =
    (before.length,(before.map Fragment.size).sum)
  rest : skb.bytes.drop start = contents (⟨f.page,f.off+k,f.size-k⟩::after)
  header : (if mapHeaderSize ≤ f.size-k then
      some ((f.page.drop (f.off+k)).take mapHeaderSize)
    else skbCopyBits skb start mapHeaderSize) =
      if mapHeaderSize ≤ (skb.bytes.drop start).length then
        some ((skb.bytes.drop start).take mapHeaderSize) else none
  type : typeByte skbCopyBits skb f start (f.size-k) (f.off+k) =
      if mapHeaderSize+1 ≤ (skb.bytes.drop start).length then
        some ((skb.bytes.drop start).getD mapHeaderSize 0) else none

/-- Every position in the skb lies in a fragment, and the header there is read from the
bytes however they are split. -/
theorem startsIn {skbCopyBits : Skb → ℕ → ℕ → Option (List UInt8)}
    (hcopy : CopiesBits skbCopyBits) (skb : Skb) {start : ℕ} (hstart : start < skb.len) :
    ∃ before f after k, StartsIn skbCopyBits skb start before f after k := by
  obtain ⟨before,f,after,hfs,hfind,h1,h2⟩ :=
    findStartFrag_spec skb.frags (i := 0) (o := 0) (Nat.zero_le start)
      (by simpa [Skb.len] using hstart)
  rw [Nat.zero_add] at h1 h2
  rw [Nat.zero_add,Nat.zero_add] at hfind
  obtain ⟨k,hk⟩ : ∃ k, start = (before.map Fragment.size).sum+k :=
    ⟨start-(before.map Fragment.size).sum,by omega⟩
  have hfits : ∀ g ∈ before++f::after, g.Fits := hfs ▸ skb.fits
  have hf : f.Fits := hfits f (by simp)
  have hkf : k < f.size := by omega
  have hrest : skb.bytes.drop start = contents (⟨f.page,f.off+k,f.size-k⟩::after) := by
    rw [hk,Skb.bytes,hfs]
    exact drop_contents (fun g hg => hfits g (by simp [hg])) hf hkf.le
  have hlen : skb.bytes.length = skb.len := length_contents skb.fits
  have hg : Fragment.Fits ⟨f.page,f.off+k,f.size-k⟩ := hf.part (by omega)
  have hbl : (Fragment.bytes ⟨f.page,f.off+k,f.size-k⟩).length = f.size-k := hg.length_bytes
  refine ⟨before,f,after,k,hfs,hk,hkf,hfind,hrest,?_,typeByte_eq hcopy skb hstart hkf hf hrest⟩
  -- the header is the first four bytes of the rest, if there are that many
  split_ifs with h4 h5 h5
  · rw [hrest,contents_cons,List.take_append_of_le_length (by omega),Fragment.bytes,
      List.take_take,Nat.min_eq_left h4]
  · refine absurd ?_ h5
    rw [hrest,contents_cons,List.length_append,hbl]
    omega
  · rw [List.length_drop] at h5
    rw [hcopy,if_pos (by omega)]
  · rw [List.length_drop] at h5
    rw [hcopy,if_neg (by omega)]

/-- One call cuts off the complete frame at `start`, or stops when there is none. -/
theorem deaggregateOne_spec {skbCopyBits : Skb → ℕ → ℕ → Option (List UInt8)}
    (hcopy : CopiesBits skbCopyBits) (skb : Skb) (port : Port) {start fuel : ℕ}
    (priority : ℕ) (hstart : start < skb.len) (hfuel : skb.frags.length < fuel) :
    ∃ one, deaggregateOne skbCopyBits fuel skb port start priority = some one ∧
      one.port.dataFormat = port.dataFormat ∧
      one.rc = frameSize port.dataFormat (skb.bytes.drop start) ∧
      ∀ n, one.rc = some n → ∃ d, one.appended = [d] ∧
        d.bytes = (skb.bytes.drop start).take n ∧ d.len = n ∧ d.priority = priority := by
  obtain ⟨before,f,after,k,hat⟩ := startsIn hcopy skb hstart
  have hfs := hat.frags
  have hrest := hat.rest
  have hkf := hat.lt
  have hfits : ∀ g ∈ before++f::after, g.Fits := hfs ▸ skb.fits
  have hg : Fragment.Fits ⟨f.page,f.off+k,f.size-k⟩ := (hfits f (by simp)).part (by omega)
  have hget : skb.frags[before.length]? = some f := by rw [hfs]; simp
  have hko : start-(before.map Fragment.size).sum = k := by
    have hs := hat.start_eq
    omega
  simp only [deaggregateOne,hat.found,hget,hko]
  rw [hat.type,hat.header]
  generalize hR : skb.bytes.drop start = rest at *
  have hp : mapPktLen (rest.take mapHeaderSize) = mapPktLen rest :=
    mapPktLen_congr fun k hk => getD_take hk
  by_cases h4 : mapHeaderSize ≤ rest.length
  swap
  · rw [if_neg h4]
    refine ⟨_,rfl,rfl,?_,by simp⟩
    exact (if_neg fun hc => h4 hc.1).symm
  rw [if_pos h4]
  simp only [hp]
  by_cases h0 : mapPktLen rest = 0
  · rw [if_pos h0]
    refine ⟨_,rfl,rfl,?_,by simp⟩
    exact (if_neg fun hc => hc.2.1 h0).symm
  rw [if_neg h0]
  cases hfl : frameLength port.dataFormat (rest.take mapHeaderSize)
      (if mapHeaderSize+1 ≤ rest.length then some (rest.getD mapHeaderSize 0) else none) with
  | none =>
    have hl := frameLength_none _ hfl
    refine ⟨_,rfl,by simp,?_,by simp⟩
    exact (if_neg fun hc => by omega).symm
  | some n =>
    have hn := frameLength_eq _ n hfl
    simp only [getFragDescriptor_fst]
    -- the loop sees the rest of the first fragment and the fragments after it
    have hseen : ∀ i, (before++⟨f.page,f.off+k,f.size-k⟩::after)[i]? =
        skb.frags[i]?.map (seenFrag before.length (f.size-k) (f.off+k) i) := by
      intro i
      rw [hfs]
      rcases Nat.lt_trichotomy i before.length with hi|rfl|hi
      · rw [List.getElem?_append_left hi,List.getElem?_append_left hi]
        rw [seenFrag_ne _ _ hi.ne,Option.map_id,id]
      · simp [seenFrag]
      · obtain ⟨j,rfl⟩ : ∃ j, i = before.length+1+j := ⟨i-(before.length+1),by omega⟩
        rw [List.getElem?_append_right (by omega),List.getElem?_append_right (by omega),
          show before.length+1+j-before.length = j+1 by omega,List.getElem?_cons_succ,
          List.getElem?_cons_succ]
        rw [seenFrag_ne _ _ (by omega),Option.map_id,id]
    have hdrop : (before++⟨f.page,f.off+k,f.size-k⟩::after).drop before.length =
        (⟨f.page,f.off+k,f.size-k⟩::after : List Fragment) := List.drop_left
    have hll : (before++(⟨f.page,f.off+k,f.size-k⟩::after : List Fragment)).length =
        skb.frags.length := by simp [hfs]
    obtain ⟨e,he,hbe,hwe,hse⟩ := addPacketFrags_spec hseen before.length
      (by
        rw [hdrop]
        intro g hgm
        rcases List.mem_cons.mp hgm with rfl|hgm
        · exact hg
        · exact hfits g (by simp [hgm]))
      fuel (by omega) (d := { ({} : FragDescriptor) with priority := priority })
      (wf_empty _ rfl rfl) n
    rw [hdrop,← hrest] at he hbe
    rw [he]
    have hb : e.bytes = rest.take n := hbe
    by_cases hfit : n ≤ rest.length
    · have hs : frameSize port.dataFormat rest = some n :=
        frameSize_some.mpr ⟨h4,h0,hfit,hn⟩
      have hel : e.len = n := by
        rw [← hwe.length_bytes,hb,List.length_take,Nat.min_eq_left hfit]
      have hpr : e.priority = priority := by
        unfold SameMeta at hse
        rw [hse]
      refine ⟨_,if_pos (by omega),getFragDescriptor_dataFormat port,by rw [hs,hel],?_⟩
      intro m hm
      obtain rfl : e.len = m := Option.some.inj hm
      exact ⟨e,rfl,by rw [hb,hel],rfl,hpr⟩
    · refine ⟨_,if_neg (by omega),getFragDescriptor_dataFormat port,?_,by simp⟩
      exact (if_neg fun hc => by omega).symm

theorem deaggregateOne_failed {skbCopyBits : Skb → ℕ → ℕ → Option (List UInt8)} {skb : Skb}
    {port : Port} {start priority fuel : ℕ} {one : Deaggregated}
    (h : deaggregateOne skbCopyBits fuel skb port start priority = some one)
    (hrc : one.rc = none) : one.appended = [] := by
  simp only [deaggregateOne] at h
  split at h
  · rw [← Option.some.inj h]
  split at h
  · rw [← Option.some.inj h]
  split at h
  · rw [← Option.some.inj h]
  split at h
  · rw [← Option.some.inj h]
  split at h
  · simp at h
  split at h <;> rw [← Option.some.inj h] at hrc ⊢
  simp at hrc

/-! ## The whole buffer -/

/-- The loop appends the frames at the front of what is left of the buffer. -/
theorem deaggregateFrom_spec {skbCopyBits : Skb → ℕ → ℕ → Option (List UInt8)}
    (hcopy : CopiesBits skbCopyBits) (skb : Skb) (priority : ℕ) {bound : ℕ}
    (hbound : skb.frags.length < bound) (fuel start : ℕ) (hfuel : skb.len-start < fuel)
    (port : Port) (list : List FragDescriptor) :
    ∃ ds port', deaggregateFrom skbCopyBits bound skb priority fuel port list start =
        some (list++ds,port') ∧
      ds.map bytes = (qmap port.dataFormat).frames (skb.bytes.drop start) ∧
      ∀ d ∈ ds, d.len = d.bytes.length ∧ d.priority = priority := by
  have hlen : skb.bytes.length = skb.len := length_contents skb.fits
  induction fuel generalizing start port list with
  | zero => omega
  | succ fuel ih =>
    simp only [deaggregateFrom]
    by_cases hs : start < skb.len
    · rw [if_pos hs]
      obtain ⟨one,hone,hfmt,hrc,happ⟩ :=
        deaggregateOne_spec hcopy skb port priority hs hbound
      rw [hone]
      cases hn : frameSize port.dataFormat (skb.bytes.drop start) with
      | none =>
        rw [hn] at hrc
        have hnil : one.appended = [] := deaggregateOne_failed hone hrc
        refine ⟨[],one.port,by simp [hrc,hnil],?_,by simp⟩
        exact ((qmap port.dataFormat).frames_none hn).symm
      | some n =>
        rw [hn] at hrc
        obtain ⟨d,hd,hdb,hdl,hdp⟩ := happ n hrc
        have hpos : 0 < n := (qmap port.dataFormat).size_pos hn
        have hle : n ≤ (skb.bytes.drop start).length := (qmap port.dataFormat).size_le hn
        obtain ⟨ds,port',hrun,hmap,hds⟩ :=
          ih (start+n) (by omega) one.port (list++[d])
        refine ⟨d::ds,port',?_,?_,?_⟩
        · simp only [hrc,hd,hrun,List.append_assoc,List.singleton_append]
        · rw [List.map_cons,hmap,hfmt,hdb,(qmap port.dataFormat).frames_some hn,
            List.drop_drop]
        · intro e he
          rcases List.mem_cons.mp he with rfl|he
          · rw [hdl,hdb,List.length_take,Nat.min_eq_left hle]
            exact ⟨rfl,hdp⟩
          · exact hds e he
    · rw [if_neg hs]
      refine ⟨[],port,by simp,?_,by simp⟩
      have hnil : skb.bytes.drop start = [] := List.drop_of_length_le (by omega)
      rw [hnil,(qmap port.dataFormat).frames_none (by simp [qmap,frameSize,mapHeaderSize])]
      rfl

/-- The pieces are consecutive from the front of the bytes, each of them a frame, and no
complete frame begins where they end. -/
structure Partition (dataFormat : BitVec 32) (bs : List UInt8)
    (pieces : List (List UInt8)) : Prop where
  consecutive : ∃ rest, bs = pieces.flatten++rest ∧
    ∀ frame, IsQmapFrame dataFormat frame → ¬frame <+: rest
  frames : ∀ piece ∈ pieces, IsQmapFrame dataFormat piece

theorem partition_frames (dataFormat : BitVec 32) (bs : List UInt8) :
    Partition dataFormat bs ((qmap dataFormat).frames bs) where
  consecutive := by
    obtain ⟨rest,hr,hn⟩ := (qmap dataFormat).frames_partition bs
    exact ⟨rest,hr,fun frame hf => hn frame (isFrame_qmap.mpr hf)⟩
  frames _ hp := isFrame_qmap.mp ((qmap dataFormat).isFrame_of_mem hp)

/-- Deaggregation ends, the descriptors it appends hold the frames that partition the
buffer, and another splitting of the same bytes gives the same frames. -/
theorem deaggregate_partition {skbCopyBits : Skb → ℕ → ℕ → Option (List UInt8)}
    (hcopy : CopiesBits skbCopyBits) (skb : Skb) (port : Port) (list : List FragDescriptor)
    (priority : ℕ) {fuel : ℕ} (hfuel : max skb.len skb.frags.length < fuel) :
    ∃ ds port', deaggregate skbCopyBits fuel skb port list priority = some (list++ds,port') ∧
      Partition port.dataFormat skb.bytes (ds.map bytes) ∧
      (∀ d ∈ ds, d.len = d.bytes.length ∧ d.priority = priority) ∧
      ∀ (skb₂ : Skb) (port₂ : Port) (list₂ : List FragDescriptor) (priority₂ fuel₂ : ℕ),
        skb₂.bytes = skb.bytes → port₂.dataFormat = port.dataFormat →
        max skb₂.len skb₂.frags.length < fuel₂ →
        ∃ ds₂ port₂', deaggregate skbCopyBits fuel₂ skb₂ port₂ list₂ priority₂ =
          some (list₂++ds₂,port₂') ∧ ds₂.map bytes = ds.map bytes := by
  obtain ⟨ds,port',hrun,hmap,hds⟩ := deaggregateFrom_spec hcopy skb priority
    (show skb.frags.length < fuel by omega) fuel 0 (by omega) port list
  rw [List.drop_zero] at hmap
  refine ⟨ds,port',hrun,hmap ▸ partition_frames _ _,hds,?_⟩
  intro skb₂ port₂ list₂ priority₂ fuel₂ hb hf hfuel₂
  obtain ⟨ds₂,port₂',hrun₂,hmap₂,-⟩ := deaggregateFrom_spec hcopy skb₂ priority₂
    (show skb₂.frags.length < fuel₂ by omega) fuel₂ 0 (by omega) port₂ list₂
  refine ⟨ds₂,port₂',hrun₂,?_⟩
  rw [hmap₂,hmap,List.drop_zero,hb,hf]

/-- `skb_copy_bits` on an skb without linear data: a walk over the fragments. -/
def walkCopyBits (skb : Skb) (offset len : ℕ) : Option (List UInt8) :=
  if offset+len ≤ skb.len then some (copyLoop skb.frags offset len) else none

theorem copiesBits_walkCopyBits : CopiesBits walkCopyBits := by
  intro skb offset len
  simp only [walkCopyBits,copyLoop_eq skb.fits]
  rfl

/-- Two frames with a v5 checksum header; the page ends in the second QMAP header. -/
def straddlingSkb : Skb where
  frags := [⟨[9,9,0,0,0,1,4,0,0,0,7,0,0],2,11⟩,⟨[0,2,4,0,0,0,8,8,5],0,9⟩]
  fits := by decide

/-- A port in the v5 checksum format with an empty pool. -/
def cksumv5Port : Port := ⟨privFlagsIngressMapCksumv5,⟨[],0,zeroed_nil⟩⟩

theorem deaggregate_straddling :
    ∃ ds port', deaggregate walkCopyBits 21 straddlingSkb cksumv5Port [] 0 =
        some ([]++ds,port') ∧
      Partition cksumv5Port.dataFormat straddlingSkb.bytes (ds.map bytes) ∧
      (∀ d ∈ ds, d.len = d.bytes.length ∧ d.priority = 0) ∧
      ∀ (skb₂ : Skb) (port₂ : Port) (list₂ : List FragDescriptor) (priority₂ fuel₂ : ℕ),
        skb₂.bytes = straddlingSkb.bytes → port₂.dataFormat = cksumv5Port.dataFormat →
        max skb₂.len skb₂.frags.length < fuel₂ →
        ∃ ds₂ port₂', deaggregate walkCopyBits fuel₂ skb₂ port₂ list₂ priority₂ =
          some (list₂++ds₂,port₂') ∧ ds₂.map bytes = ds.map bytes :=
  deaggregate_partition copiesBits_walkCopyBits straddlingSkb cksumv5Port [] 0 (by decide)

example : (deaggregate walkCopyBits 21 straddlingSkb cksumv5Port [] 0).map
    (fun r => r.1.map bytes) =
      some [[0,0,0,1,4,0,0,0,7],[0,0,0,2,4,0,0,0,8,8]] := by decide

end Rmnet
end MarbleModules
