import Mathlib.Tactic

/-! The choice of a new channel after radar was seen: the channels that the rules leave
are marked in bitmaps of 80 MHz bands, a channel of the asked width is drawn from the
bitmaps, and the width falls back while there is none. The build has 6 GHz channels and no
leakage matrix, so nothing is marked as leaking. -/
namespace MarbleModules
namespace Dfs

/-- `DFS_CH_WIDTH_*` -/
inductive ChWidth
  | mhz20 | mhz40 | mhz80 | mhz160 | mhz80p80 | mhz5 | mhz10 | invalid
  deriving DecidableEq

/-- `*chan_wd < DFS_CH_WIDTH_20MHZ || *chan_wd > DFS_CH_WIDTH_80P80MHZ` -/
def ChWidth.invalidParam : ChWidth → Bool
  | .mhz5 | .mhz10 | .invalid => true
  | _ => false

/-- `enum dfs_reg`, the regions that the rules look at. -/
inductive Region
  | etsi | mkk | mkkn | otherRegion
  deriving DecidableEq

/-- The fields of `struct dfs_channel` that the rules read. -/
structure DfsChannel where
  ieee : ℕ
  freq : ℕ
  isDfs : Bool
  deriving DecidableEq

/-- The mode bits of the operating channel, in the order they are tested. -/
inductive ChanMode
  | mode20 | mode40 | mode80 | mode8080 | mode160 | none
  deriving DecidableEq

/-- `dfs->dfs_curchan` -/
structure CurChan where
  mode : ChanMode
  seg1 : ℕ
  seg2 : ℕ

/-- `struct wlan_dfs`: the frequencies under radar and the operating channel. -/
structure WlanDfs where
  nol : List ℕ
  curchan : CurChan

/-- `struct dfs_acs_info` -/
structure AcsInfo where
  acsMode : Bool
  chanFreqList : List ℕ

/-- `struct ch_params` -/
structure ChParams where
  chWidth : ChWidth
  mhzFreqSeg0 : ℕ
  mhzFreqSeg1 : ℕ
  deriving DecidableEq

/-! ## Flags -/

/-- `DFS_RANDOM_CH_FLAG_*` -/
def noCurrOpeCh : ℕ := 0x0001
def noWeatherCh : ℕ := 0x0002
def noLower5gCh : ℕ := 0x0004
def noUpper5gCh : ℕ := 0x0008
def noDfsCh : ℕ := 0x0010
def no5ghzCh : ℕ := 0x0020
def no2ghzCh : ℕ := 0x0040
def noJapanW53Ch : ℕ := 0x0100
def restricted80p80Enabled : ℕ := 0x0200
def no6ghzCh : ℕ := 0x0400
def noSpruceSpurAdjCh : ℕ := 0x0800

def has (flags flag : ℕ) : Bool := flags &&& flag != 0

/-! ## The rules -/

/-- `dfs_calc_bonding_freqs` -/
def calcBondingFreqs (centerFreq chWidth : ℕ) : List ℕ :=
  (List.range (chWidth/20)).map fun i => centerFreq-chWidth/2+10+i*20

/-- `dfs_get_bonding_channel_without_seg_info_for_freq` -/
def bondingChannel (chan : CurChan) : List ℕ :=
  match chan.mode with
  | .mode20 => calcBondingFreqs chan.seg1 20
  | .mode40 => calcBondingFreqs chan.seg1 40
  | .mode80 => calcBondingFreqs chan.seg1 80
  | .mode8080 => calcBondingFreqs chan.seg1 80++calcBondingFreqs chan.seg2 80
  | .mode160 => calcBondingFreqs chan.seg2 160
  | .none => []

/-- `dfs_is_freq_in_nol` -/
def isFreqInNol (dfs : WlanDfs) (freq : ℕ) : Bool := dfs.nol.contains freq

/-- `MAX_CHANNEL_NUM` -/
def maxChannelNum : ℕ := 184

/-- `DFS_MAX_24GHZ_CHANNEL_FREQ` -/
def max24ghzChannelFreq : ℕ := 2484

def within (lo hi freq : ℕ) : Bool := decide (lo ≤ freq) && decide (freq ≤ hi)

/-- Every reason for which `dfs_apply_rules_for_freq` skips a channel, in its order. -/
def skips (dfs : WlanDfs) (flags : ℕ) (dfsRegion : Region) (acsInfo : Option AcsInfo)
    (chan : DfsChannel) : List Bool :=
  let flagNoWeather := dfsRegion == .etsi && has flags noWeatherCh
  let japan := dfsRegion == .mkk || dfsRegion == .mkkn
  [chan.ieee == 0 || decide (maxChannelNum < chan.ieee),
    has flags noCurrOpeCh && (bondingChannel dfs.curchan).contains chan.freq,
    acsInfo.any fun acs => acs.acsMode && !acs.chanFreqList.contains chan.freq,
    has flags no2ghzCh && decide (chan.freq ≤ max24ghzChannelFreq),
    has flags no5ghzCh && within 5180 5885 chan.freq,
    flagNoWeather && within 5600 5650 chan.freq,
    japan && has flags noLower5gCh && within 5180 5320 chan.freq,
    japan && has flags noUpper5gCh && within 5500 5720 chan.freq,
    has flags no6ghzCh && within 5935 7115 chan.freq,
    has flags noDfsCh && chan.isDfs,
    japan && has flags noJapanW53Ch && within 5260 5320 chan.freq,
    isFreqInNol dfs chan.freq]

/-- The channel stays in the list. -/
def passes (dfs : WlanDfs) (flags : ℕ) (dfsRegion : Region) (acsInfo : Option AcsInfo)
    (chan : DfsChannel) : Bool :=
  (skips dfs flags dfsRegion acsInfo chan).all (!·)

/-- `dfs_apply_rules_for_freq` -/
def applyRules (dfs : WlanDfs) (flags : ℕ) (chanList : List DfsChannel) (dfsRegion : Region)
    (acsInfo : Option AcsInfo) : List ℕ :=
  (chanList.filter (passes dfs flags dfsRegion acsInfo)).map DfsChannel.freq

/-- `dfs_remove_spruce_spur_channels_for_bw_20_40` -/
def removeSpruceSpurChannels (freqList : List ℕ) : List ℕ :=
  freqList.map fun freq => if within 5200 5240 freq then 0 else freq

/-! ## The bitmaps -/

/-- `struct chan_bonding_info` -/
structure ChanBondingInfo where
  startChanFreq : ℕ
  chanMap : ℕ
  deriving DecidableEq

/-- The first 20 MHz channel of each 80 MHz band. -/
def bandStarts : List ℕ :=
  [5180,5260,5500,5580,5660,5745,5825,5955,6035,6115,6195,6275,6355,6435,6515,6595,6675,
    6755,6835,6915,6995]

/-- The bitmap before any channel is marked. -/
def emptyMap : List ChanBondingInfo := bandStarts.map fun start => ⟨start,0⟩

/-- `dfs_random_channel_sel_set_bitmap_for_freq` -/
def setBitmap : List ChanBondingInfo → ℕ → List ChanBondingInfo
  | [],_ => []
  | b::bs,freq =>
    if b.startChanFreq ≤ freq ∧ freq ≤ b.startChanFreq+60 then
      { b with chanMap := b.chanMap ||| 1 <<< ((freq-b.startChanFreq)/20) }::bs
    else b::setBitmap bs freq

/-- `n` channels next to each other. -/
def block (start n : ℕ) : List ℕ := (List.range n).map fun i => start+20*i

/-- `dfs_populate_80mhz_available_channel_for_freq` -/
def populate80 (bitmap : List ChanBondingInfo) : List ℕ :=
  bitmap.flatMap fun b => if b.chanMap = 0x0F then block b.startChanFreq 4 else []

/-- `dfs_populate_40mhz_available_channel_for_freq` -/
def populate40 (bitmap : List ChanBondingInfo) : List ℕ :=
  bitmap.flatMap fun b =>
    (if b.chanMap &&& 0x03 = 0x03 then block b.startChanFreq 2 else [])++
      if b.chanMap &&& 0x0C = 0x0C then block (b.startChanFreq+40) 2 else []

/-- `dfs_populate_available_channel_for_freq` -/
def populate (bitmap : List ChanBondingInfo) : ChWidth → List ℕ
  | .mhz160 | .mhz80p80 | .mhz80 => populate80 bitmap
  | .mhz40 => populate40 bitmap
  | _ => []

/-! ## Drawing a channel -/

/-- `dfs_get_rand_from_lst_for_freq`, the random byte and the ticks added up in `rand`. -/
def getRandFromLst (freqLst : List ℕ) (rand : ℕ) : ℕ :=
  if freqLst = [] then 0 else freqLst.getD (rand%freqLst.length) 0

/-- The loop that looks for eight channels next to each other: `i` and `count` as in the
loop, `prev` is `final_lst[i - 1]`. -/
def find160 (finalLst : List ℕ) : List ℕ → ℕ → ℕ → ℕ → Option ℕ
  | [],_,_,_ => none
  | freq::rest,prev,i,count =>
    let count := if freq = prev+20 then count+1 else 0
    if count = 7 then some (finalLst.getD (i-count) 0)
    else find160 finalLst rest freq (i+1) count

/-- The loop that looks for a second segment, over the bands left in `finalLst`. -/
def findSecSeg (finalLst : List ℕ) (primary : ℕ) (bands : List ℕ) : Option ℕ :=
  (bands.find? fun i => finalLst.getD (i*4) 0 != 0 &&
    (decide (primary+80 < finalLst.getD (i*4) 0) || decide (finalLst.getD (i*4) 0+80 < primary))
      ).map fun i => finalLst.getD (i*4) 0+30

/-- A channel, the width that goes with it, and the second segment if it was written. -/
structure Found where
  targetChannel : ℕ
  chanWd : ChWidth
  centerFreqSeg1 : Option ℕ
  deriving DecidableEq

/-- The 80+80 MHz part of `dfs_find_ch_with_fallback_for_freq`. -/
def find80p80 (finalLst : List ℕ) (rand : ℕ) : Found :=
  let index := rand%finalLst.length
  let targetChannel := finalLst.getD index 0
  let start := index-index%4
  let primary := finalLst.getD start 0
  -- the channels of the primary band are reset
  let rest := finalLst.take start++List.replicate 4 0++finalLst.drop (start+4)
  match findSecSeg rest primary (List.range (finalLst.length/4)) with
  | some secSeg => ⟨targetChannel,.mhz80p80,some secSeg⟩
  | none =>
    if finalLst.length = 8 then ⟨targetChannel,.mhz160,some 0⟩
    else ⟨targetChannel,.mhz80,some 0⟩

/-- The width to try next when there is no channel of a width. -/
def fallbackWidth : ChWidth → ChWidth
  | .mhz160 | .mhz80p80 | .mhz80 => .mhz40
  | .mhz40 => .mhz20
  | chanWd => chanWd

/-- `dfs_find_ch_with_fallback_for_freq` -/
def findChWithFallback (chanWd : ChWidth) (freqLst : List ℕ) (rand : ℕ) : Found :=
  let chMap := freqLst.foldl setBitmap emptyMap
  let finalLst := populate chMap chanWd
  if finalLst.length = 0 then ⟨0,fallbackWidth chanWd,none⟩
  else if (chanWd = .mhz160 ∨ chanWd = .mhz80p80) ∧ finalLst.length < 8 then ⟨0,.mhz80,none⟩
  else if chanWd = .mhz160 then
    match find160 finalLst finalLst.tail (finalLst.headD 0) 1 0 with
    | none => ⟨0,.mhz80,none⟩
    | some start => ⟨start+rand%8*20,.mhz160,none⟩
  else if chanWd = .mhz80p80 then find80p80 finalLst rand
  else ⟨getRandFromLst finalLst rand,chanWd,none⟩

/-! ## The whole choice -/

/-- What `dfs_prepare_random_channel_for_freq` gives back. -/
structure Choice where
  targetFreq : ℕ
  chanParams : ChParams
  deriving DecidableEq

def Found.params (f : Found) (p : ChParams) : ChParams :=
  { p with chWidth := f.chanWd, mhzFreqSeg1 := f.centerFreqSeg1.getD p.mhzFreqSeg1 }

/-- `CHAN_WITHIN_RESTRICTED_80P80` -/
def withinRestricted80p80 (p : ChParams) : Bool :=
  within 5660 5805 p.mhzFreqSeg0 && within 5660 5805 p.mhzFreqSeg1

section Prepare

-- `wlan_reg_set_channel_params_for_freq`
variable (setChannelParams : ℕ → ChParams → ChParams)

/-- The search of one turn of the loop, with the second search when 80+80 is restricted. -/
def search (flags : ℕ) (freqLst : List ℕ) (p : ChParams) (rand rand' : ℕ) : Choice :=
  let found := findChWithFallback p.chWidth freqLst rand
  let p := found.params p
  if p.chWidth = .mhz80p80 ∧ has flags restricted80p80Enabled ∧ found.targetChannel ≠ 0 then
    let p := setChannelParams found.targetChannel p
    if withinRestricted80p80 p then ⟨found.targetChannel,p⟩
    else
      let found := findChWithFallback .mhz160 freqLst rand'
      ⟨found.targetChannel,found.params p⟩
  else ⟨found.targetChannel,p⟩

/-- The loop of `dfs_prepare_random_channel_for_freq`; `none` when it has not ended within
the fuel. Every turn has random numbers of its own. -/
def prepareLoop (flags : ℕ) (dfsRegion : Region) (freqLst : List ℕ) (rand : ℕ → ℕ) :
    ℕ → ChParams → Option Choice
  | 0,_ => none
  | fuel+1,p =>
    if p.chWidth = .mhz20 then
      some ⟨getRandFromLst (freqLst.filter (· != 0)) (rand (2*fuel)),p⟩
    else
      let c := search setChannelParams flags freqLst p (rand (2*fuel)) (rand (2*fuel+1))
      if dfsRegion = .etsi ∧ has flags noWeatherCh ∧ c.targetFreq = 5580 ∧
          c.chanParams.chWidth = .mhz40 then
        prepareLoop flags dfsRegion freqLst rand fuel c.chanParams
      else if has flags noSpruceSpurAdjCh ∧ within 5180 5240 c.targetFreq ∧
          c.targetFreq ≠ 5200 ∧ c.chanParams.chWidth = .mhz80 then
        prepareLoop flags dfsRegion freqLst rand fuel c.chanParams
      else if c.targetFreq ≠ 0 then some c
      else prepareLoop flags dfsRegion freqLst rand fuel c.chanParams

/-- The list that the loop draws from. -/
def drawList (dfs : WlanDfs) (chanList : List DfsChannel) (flags : ℕ) (chWidth : ChWidth)
    (dfsRegion : Region) (acsInfo : Option AcsInfo) : List ℕ :=
  let freqList := applyRules dfs flags chanList dfsRegion acsInfo
  if has flags noSpruceSpurAdjCh ∧ (chWidth = .mhz20 ∨ chWidth = .mhz40) then
    removeSpruceSpurChannels freqList
  else freqList

/-- `dfs_prepare_random_channel_for_freq` -/
def prepareRandomChannel (dfs : WlanDfs) (chanList : List DfsChannel) (flags : ℕ)
    (chanParams : ChParams) (dfsRegion : Region) (acsInfo : Option AcsInfo)
    (rand : ℕ → ℕ) (fuel : ℕ) : Option Choice :=
  if chanList = [] then some ⟨0,chanParams⟩
  else if chanParams.chWidth.invalidParam then some ⟨0,chanParams⟩
  else
    let freqLst := drawList dfs chanList flags chanParams.chWidth dfsRegion acsInfo
    -- an allocation of no bytes fails
    if freqLst = [] then some ⟨0,chanParams⟩
    else prepareLoop setChannelParams flags dfsRegion freqLst rand fuel chanParams

end Prepare

end Dfs
end MarbleModules
