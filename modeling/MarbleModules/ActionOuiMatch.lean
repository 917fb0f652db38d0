import MarbleModules.ActionOuiSearch

/-! What the masks of an action OUI extension say, and when the search means the same. -/
namespace MarbleModules
namespace ActionOui

/-- The elements of a buffer: each one's number and its bytes. -/
def elements : ℕ → List UInt8 → List (UInt8 × List UInt8)
  | n+1,elemId::len::rest =>
    if rest.length < len.toNat then []
    else (elemId,rest.take len.toNat)::elements n (rest.drop len.toNat)
  | _,_ => []

/-- The bytes after the OUI in the first vendor element that carries it. -/
def vendorData (oui ie : List UInt8) : Option (List UInt8) :=
  ((elements ie.length ie).find? fun x => decide (x.1 = eidVendor ∧ oui <+: x.2)).map
    fun x => x.2.drop oui.length

/-- The bytes after the OUI agree with the data where the mask asks for it. -/
def Carries (e : Extension) (body : List UInt8) : Prop :=
  e.dataLength ≤ body.length ∧
    ∀ i < e.dataLength, maskBit e.dataMask i → body[i]? = some (byteAt e.data i)

def OuiHolds (e : Extension) (attr : SearchAttr) : Prop :=
  ∃ body, vendorData e.ouiBytes attr.ieData = some body ∧ (0 < e.dataLength → Carries e body)

def MacHolds (e : Extension) (attr : SearchAttr) : Prop :=
  ∀ i : Fin 6, maskBit e.macMask i → e.macAddr i = attr.macAddr i

/-- The tests of the streams, of HT and VHT and of the bands that `info_mask` enables. -/
structure CapsHold (e : Extension) (attr : SearchAttr) : Prop where
  nss : e.has infoNss →
    ∃ k : Fin 4, (attr.nss-1).toNat % 32 = k ∧ e.capability 0 &&& (1 <<< UInt8.ofNat k) ≠ 0
  ht : e.has infoHt → (e.capability 0 &&& capabilityHtEnableMask ≠ 0 ↔ attr.htCap = true)
  vht : e.has infoVht → (e.capability 0 &&& capabilityVhtEnableMask ≠ 0 ↔ attr.vhtCap = true)
  band5g : e.has infoBand → attr.enable5g = true → e.capability 0 &&& capability5gBandMask ≠ 0
  band2g : e.has infoBand → attr.enable2g = true → e.capability 0 &&& capability2gBandMask ≠ 0

/-- The extension matches, by what its masks say. -/
structure Matches (e : Extension) (attr : SearchAttr) : Prop where
  oui : e.has infoOui → OuiHolds e attr
  mac : e.has infoMacAddress → MacHolds e attr
  caps : CapsHold e attr

section Element

theorem prefix_take_iff {oui rest : List UInt8} {k n : ℕ} (hn : oui.length ≤ n)
    (hk : n ≤ (rest.take k).length) :
    oui <+: rest.take n ↔ (rest.take k).take oui.length = oui := by
  rw [List.length_take] at hk
  rw [List.take_take,Nat.min_eq_left (by omega),List.prefix_take_iff,List.prefix_iff_eq_take]
  constructor
  · exact fun h => h.1.symm
  · exact fun h => ⟨h.symm,hn⟩

/-- An element that the walk stops at and that is long enough for the OUI is the first one of the
whole buffer that carries it. -/
theorem getIePtr_find (oui : List UInt8) (n : ℕ) :
    ∀ (m k : ℕ) (ie p : List UInt8), ie.length ≤ m →
      getIePtr eidVendor oui n (ie.take k) = some p → oui.length ≤ elemLen p →
      (elements m ie).find? (fun x => decide (x.1 = eidVendor ∧ oui <+: x.2)) =
        some (eidVendor,(p.drop 2).take (elemLen p)) ∧ elemLen p ≤ (p.drop 2).length := by
  induction n with
  | zero =>
    intro m k ie p _ h
    simp [getIePtr] at h
  | succ n ih =>
    intro m k ie p hm h hlong
    match ie,k with
    | [],_ => simp [getIePtr] at h
    | _,0 => simp [getIePtr] at h
    | [_],k+1 => simp [getIePtr] at h
    | _::_::_,1 => simp [getIePtr] at h
    | elemId::len::rest,k+2 =>
      obtain ⟨m,rfl⟩ : ∃ j, m = j+1 := ⟨m-1,by simp only [List.length_cons] at hm; omega⟩
      simp only [List.take_succ_cons,getIePtr] at h
      split at h
      · simp at h
      next hfit =>
      have hfit' : ¬rest.length < len.toNat := by
        rw [List.length_take] at hfit
        omega
      have hrest : (elements m (rest.drop len.toNat)).find?
            (fun x => decide (x.1 = eidVendor ∧ oui <+: x.2)) =
              some (eidVendor,(p.drop 2).take (elemLen p)) ∧ elemLen p ≤ (p.drop 2).length ∨
          getIePtr eidVendor oui n ((rest.take k).drop len.toNat) ≠ some p := by
        by_cases hne : getIePtr eidVendor oui n ((rest.take k).drop len.toNat) = some p
        · rw [List.drop_take] at hne
          left
          apply ih m (k-len.toNat) (rest.drop len.toNat) p _ hne hlong
          simp only [List.length_cons,List.length_drop] at hm ⊢
          omega
        · exact Or.inr hne
      rw [elements,if_neg hfit']
      split at h
      next heid =>
        split at h
        · simp at h
        split at h
        next htake =>
          cases h
          have hl : elemLen (elemId::len::rest.take k) = len.toNat := rfl
          rw [hl] at hlong ⊢
          have hpre : oui <+: rest.take len.toNat :=
            (prefix_take_iff hlong (by omega)).2 htake
          rw [List.find?_cons_of_pos (by simpa using ⟨heid.symm,hpre⟩)]
          refine ⟨?_,by simpa using hfit⟩
          simp only [List.drop_succ_cons,List.drop_zero,List.take_take,heid]
          rw [Nat.min_eq_left]
          rw [List.length_take] at hfit
          omega
        next htake =>
          rw [List.find?_cons_of_neg]
          · exact hrest.resolve_right (not_not.2 h)
          · simp only [decide_eq_true_eq,not_and]
            intro _ hpre
            have hle := hpre.length_le
            rw [List.length_take] at hle
            exact htake ((prefix_take_iff (by omega) (by omega)).1 hpre)
      next heid =>
        rw [List.find?_cons_of_neg]
        · exact hrest.resolve_right (not_not.2 h)
        · simp only [decide_eq_true_eq,not_and]
          exact fun hh => absurd hh.symm heid

end Element

/-- The search takes the extension. -/
structure Accepts (e : Extension) (attr : SearchAttr) : Prop where
  oui : e.has infoOui → getOuiPtr e attr ≠ none ∧
    (e.dataLength ≠ 0 → checkForVendorOuiData e (getOuiPtr e attr) = true)
  mac : e.has infoMacAddress → checkForVendorApMac e attr = true
  caps : checkForVendorApCapabilities e attr = true

theorem searchLoop_eq_true_iff (attr : SearchAttr) (list : List Extension) :
    searchLoop attr list false = true ↔ ∃ e ∈ list, Accepts e attr := by
  induction list with
  | nil => simp [searchLoop]
  | cons e es ih =>
    have hcons : (∃ x ∈ e::es, Accepts x attr) ↔
        Accepts e attr ∨ ∃ x ∈ es, Accepts x attr := by simp
    rw [hcons,← ih,searchLoop]
    have hacc : Accepts e attr ↔
        (e.has infoOui → getOuiPtr e attr ≠ none ∧
          (e.dataLength ≠ 0 → checkForVendorOuiData e (getOuiPtr e attr) = true)) ∧
        (e.has infoMacAddress → checkForVendorApMac e attr = true) ∧
        checkForVendorApCapabilities e attr = true :=
      ⟨fun h => ⟨h.oui,h.mac,h.caps⟩,fun h => ⟨h.1,h.2.1,h.2.2⟩⟩
    rw [hacc]
    by_cases houi : e.has infoOui
    · simp only [houi,if_true,and_true,true_imp_iff]
      split_ifs <;> simp_all
    · simp only [houi,if_false,Bool.true_eq_false,and_false,false_imp_iff,true_and]
      split_ifs <;> simp_all

/-- The walk finds no vendor element, or one too short for the OUI, or the element differs at a
byte past the data whose mask bit is set. -/
def Strays (e : Extension) (attr : SearchAttr) : Prop :=
  e.has infoOui ∧ ∀ p, getOuiPtr e attr = some p → 0 < e.dataLength ∧
    (elemLen p < e.ouiLength ∨
      ∃ i < 8*e.dataMaskLength, e.dataLength ≤ i ∧ maskBit e.dataMask i ∧
        ∃ b, (elemData e p)[i]? = some b ∧ e.dataAt i ≠ b)

/-- The OUI is only found across the end of a vendor element. -/
def Crosses (e : Extension) (attr : SearchAttr) : Prop :=
  e.has infoOui ∧ e.dataLength = 0 ∧ (∃ p, getOuiPtr e attr = some p ∧ elemLen p < e.ouiLength) ∧
    vendorData e.ouiBytes attr.ieData = none ∧
    (e.has infoMacAddress → MacHolds e attr) ∧ CapsHold e attr

theorem nssMask_eq (nss : UInt32) :
    capabilityNssMask &&& nssMask nss =
      if (nss-1).toNat % 32 < 4 then 1 <<< UInt8.ofNat ((nss-1).toNat % 32) else 0 := by
  have hall : ∀ s : Fin 32, capabilityNssMask &&& ((1:UInt32) <<< UInt32.ofNat s).toUInt8 =
      if (s:ℕ) < 4 then 1 <<< UInt8.ofNat s else 0 := by decide
  have hshift : (1:UInt32) <<< (nss-1) = 1 <<< UInt32.ofNat ((nss-1).toNat % 32) := by
    apply UInt32.toNat_inj.1
    simp [UInt32.toNat_shiftLeft]
  rw [nssMask,hshift]
  exact hall ⟨(nss-1).toNat % 32,Nat.mod_lt _ (by omega)⟩

theorem nssMask_meets_iff (c : UInt8) (nss : UInt32) :
    c &&& capabilityNssMask &&& nssMask nss ≠ 0 ↔
      ∃ k : Fin 4, (nss-1).toNat % 32 = k ∧ c &&& (1 <<< UInt8.ofNat k) ≠ 0 := by
  rw [UInt8.and_assoc,nssMask_eq]
  split
  next h4 =>
    constructor
    · exact fun h => ⟨⟨_,h4⟩,rfl,h⟩
    · rintro ⟨k,hk,h⟩
      rwa [hk]
  next h4 =>
    simp only [UInt8.and_zero,ne_eq,not_true_eq_false,false_iff,not_exists,not_and]
    intro k hk
    omega

theorem not_capTest_iff (enabled : Prop) (bits : UInt8) (cap : Bool) :
    ¬(enabled ∧ if bits ≠ 0 then cap = false else cap = true) ↔
      (enabled → (bits ≠ 0 ↔ cap = true)) := by
  by_cases hb : bits = 0 <;> cases cap <;> simp [hb]

theorem checkForVendorApCapabilities_iff (e : Extension) (attr : SearchAttr) :
    checkForVendorApCapabilities e attr = true ↔ CapsHold e attr := by
  have htests : ∀ (p q r s : Prop) [Decidable p] [Decidable q] [Decidable r] [Decidable s],
      (if p then false else if q then false else if r then false else if s then false
        else true) = true ↔ ¬p ∧ ¬q ∧ ¬r ∧ ¬s := by
    intro p q r s _ _ _ _
    split_ifs <;> simp_all
  rw [checkForVendorApCapabilities,htests,not_capTest_iff,not_capTest_iff]
  constructor
  · rintro ⟨hnss,hht,hvht,hband⟩
    refine ⟨fun hh => (nssMask_meets_iff _ _).1 fun h0 => hnss ⟨hh,h0⟩,hht,hvht,?_,?_⟩
    · exact fun hh hon h0 => hband ⟨hh,Or.inl ⟨hon,h0⟩⟩
    · exact fun hh hon h0 => hband ⟨hh,Or.inr ⟨hon,h0⟩⟩
  · intro h
    refine ⟨fun hh => (nssMask_meets_iff _ _).2 (h.nss hh.1) hh.2,h.ht,h.vht,?_⟩
    rintro ⟨hh,⟨hon,h0⟩ | ⟨hon,h0⟩⟩
    · exact h.band5g hh hon h0
    · exact h.band2g hh hon h0

theorem Extension.Sound.ouiBytes_length {e : Extension} (he : e.Sound) :
    e.ouiBytes.length = e.ouiLength := by
  have h := he.oui_le
  simp only [maxOuiLength] at h
  simp only [Extension.ouiBytes,List.length_take,List.length_ofFn]
  omega

theorem Extension.Sound.le_mask {e : Extension} (he : e.Sound) :
    e.dataLength ≤ 8*e.dataMaskLength := by
  rw [he.mask_eq,maskLengthFor]
  split <;> omega

/-- A long enough element the walk stops at is the vendor element. -/
theorem vendorData_of_getOuiPtr {e : Extension} {attr : SearchAttr} {p : List UInt8}
    (he : e.Sound) (hp : getOuiPtr e attr = some p) (hlong : e.ouiLength ≤ elemLen p) :
    vendorData e.ouiBytes attr.ieData = some (elemData e p) ∧
      (elemData e p).length = elemLen p-e.ouiLength := by
  have hlen := he.ouiBytes_length
  obtain ⟨hfind,hfit⟩ := getIePtr_find e.ouiBytes attr.ieData.length attr.ieData.length _
    attr.ieData p le_rfl hp (by omega)
  rw [List.length_drop] at hfit
  constructor
  · rw [vendorData,hfind]
    simp only [Option.map_some,elemData,hlen,Option.some.injEq]
    rw [List.drop_take,List.drop_drop]
  · rw [elemData,List.length_take,List.length_drop]
    omega

theorem checkForVendorOuiData_iff {e : Extension} {attr : SearchAttr} {p : List UInt8}
    (he : e.Sound) (hp : getOuiPtr e attr = some p) (hlong : e.ouiLength ≤ elemLen p) :
    checkForVendorOuiData e (some p) = true ↔ Carries e (elemData e p) ∧
      ¬∃ i < 8*e.dataMaskLength, e.dataLength ≤ i ∧ maskBit e.dataMask i ∧
        ∃ b, (elemData e p)[i]? = some b ∧ e.dataAt i ≠ b := by
  have hlen := (vendorData_of_getOuiPtr he hp hlong).2
  have hloop := dataLoop_eq_true_iff e (elemData e p) 0
  simp only [Nat.zero_div,Nat.zero_mod,Nat.zero_add] at hloop
  have hmask := he.le_mask
  have hdata : ∀ i < e.dataLength, e.dataAt i = byteAt e.data i := by
    intro i hi
    have h20 := he.data_le
    simp only [maxDataLength] at h20
    rw [Extension.dataAt,if_pos (by omega)]
  rw [checkForVendorOuiData,if_neg (by omega)]
  by_cases hshort : elemLen p-e.ouiLength < e.dataLength
  · rw [if_pos hshort]
    simp only [Bool.false_eq_true,false_iff,not_and]
    intro hcar
    exact absurd hcar.1 (by omega)
  · rw [if_neg hshort]
    refine hloop.trans ⟨fun h => ⟨⟨by omega,?_⟩,?_⟩,?_⟩
    · intro i hi hbit
      have hib : i < (elemData e p).length := by omega
      rw [List.getElem?_eq_getElem hib,← h i hib (by omega) hbit,hdata i hi]
    · rintro ⟨i,hi,_,hbit,b,hb,hne⟩
      obtain ⟨hib,rfl⟩ := List.getElem?_eq_some_iff.1 hb
      exact hne (h i hib hi hbit)
    · rintro ⟨hcar,hstray⟩ i hib hi hbit
      by_cases hd : i < e.dataLength
      · have hh := hcar.2 i hd hbit
        rw [List.getElem?_eq_getElem hib,Option.some.injEq] at hh
        rw [hdata i hd,hh]
      · by_contra hne
        exact hstray ⟨i,hi,by omega,hbit,_,List.getElem?_eq_getElem hib,hne⟩

theorem accepts_iff {e : Extension} (he : e.Sound) (attr : SearchAttr) :
    Accepts e attr ↔ (Matches e attr ∧ ¬Strays e attr) ∨ Crosses e attr := by
  have hmac := macLoop_eq_true_iff e attr
  have hcaps := checkForVendorApCapabilities_iff e attr
  constructor
  · intro h
    have hm : e.has infoMacAddress → MacHolds e attr := fun hh => hmac.1 (h.mac hh)
    have hc := hcaps.1 h.caps
    by_cases houi : e.has infoOui
    · obtain ⟨hsome,hcheck⟩ := h.oui houi
      obtain ⟨p,hp⟩ := Option.ne_none_iff_exists'.1 hsome
      rw [hp] at hcheck
      by_cases hshort : elemLen p < e.ouiLength
      · have hzero : e.dataLength = 0 := by
          by_contra hne
          have hh := hcheck hne
          simp [checkForVendorOuiData,hshort] at hh
        cases hv : vendorData e.ouiBytes attr.ieData with
        | none => exact Or.inr ⟨houi,hzero,⟨p,hp,hshort⟩,hv,hm,hc⟩
        | some body =>
          refine Or.inl ⟨⟨fun _ => ⟨body,hv,fun hpos => by omega⟩,hm,hc⟩,?_⟩
          rintro ⟨_,hstray⟩
          have hh := (hstray p hp).1
          omega
      · have hlong : e.ouiLength ≤ elemLen p := Nat.le_of_not_lt hshort
        have hv := (vendorData_of_getOuiPtr he hp hlong).1
        have hiff := checkForVendorOuiData_iff he hp hlong
        refine Or.inl ⟨⟨fun _ => ⟨_,hv,fun hpos => ?_⟩,hm,hc⟩,?_⟩
        · exact (hiff.1 (hcheck hpos.ne')).1
        · rintro ⟨_,hstray⟩
          obtain ⟨hpos,hbad⟩ := hstray p hp
          exact (hiff.1 (hcheck hpos.ne')).2 (hbad.resolve_left hshort)
    · exact Or.inl ⟨⟨fun hh => absurd hh houi,hm,hc⟩,fun hh => houi hh.1⟩
  · rintro (⟨h,hstray⟩ | ⟨houi,hzero,⟨p,hp,-⟩,-,hm,hc⟩)
    · refine ⟨fun houi => ?_,fun hh => hmac.2 (h.mac hh),hcaps.2 h.caps⟩
      obtain ⟨body,hv,hbody⟩ := h.oui houi
      simp only [Strays,houi,true_and,not_forall,not_and,not_or] at hstray
      obtain ⟨p,hp,hgood⟩ := hstray
      refine ⟨by simp [hp],fun hne => ?_⟩
      obtain ⟨hlong,hno⟩ := hgood (Nat.pos_of_ne_zero hne)
      have hlong := Nat.le_of_not_lt hlong
      have hbe := (vendorData_of_getOuiPtr he hp hlong).1
      rw [hv,Option.some.injEq] at hbe
      rw [hp,checkForVendorOuiData_iff he hp hlong,← hbe]
      rw [← hbe] at hno
      exact ⟨hbody (Nat.pos_of_ne_zero hne),hno⟩
    · refine ⟨fun _ => ⟨by simp [hp],fun hne => absurd hzero hne⟩,fun hh => hmac.2 (hm hh),
        hcaps.2 hc⟩

/-- The search means what the masks say exactly when what strays from it and what it finds across
the end of an element does not decide. -/
theorem search_iff_matches_iff (attr : SearchAttr) (list : List Extension)
    (hstored : ∀ e ∈ list, Stored e) :
    (actionOuiSearch (some list) attr = true ↔ ∃ e ∈ list, Matches e attr) ↔
      ((∃ e ∈ list, Matches e attr) →
        ∃ e ∈ list, (Matches e attr ∧ ¬Strays e attr) ∨ Crosses e attr) ∧
      ((∃ e ∈ list, Crosses e attr) → ∃ e ∈ list, Matches e attr) := by
  have hsearch : actionOuiSearch (some list) attr = true ↔
      ∃ e ∈ list, (Matches e attr ∧ ¬Strays e attr) ∨ Crosses e attr := by
    have hloop : actionOuiSearch (some list) attr = searchLoop attr list false := by
      cases list <;> rfl
    rw [hloop,searchLoop_eq_true_iff]
    constructor
    · rintro ⟨e,hmem,h⟩
      exact ⟨e,hmem,(accepts_iff (hstored e hmem).sound attr).1 h⟩
    · rintro ⟨e,hmem,h⟩
      exact ⟨e,hmem,(accepts_iff (hstored e hmem).sound attr).2 h⟩
  rw [hsearch]
  constructor
  · intro h
    refine ⟨h.2,?_⟩
    rintro ⟨e,hmem,hcross⟩
    exact h.1 ⟨e,hmem,Or.inr hcross⟩
  · rintro ⟨hback,hcross⟩
    refine ⟨?_,hback⟩
    rintro ⟨e,hmem,h | h⟩
    · exact ⟨e,hmem,h.1⟩
    · exact hcross ⟨e,hmem,h⟩

section Sample

/-- `001018 01 aa ff 01`: one byte of data, and a mask of a whole byte. -/
def wholeMaskString : List UInt8 :=
  [48,48,49,48,49,56,32,48,49,32,97,97,32,102,102,32,48,49]

def wholeMask : Extension :=
  (parseLoop (fun _ => true) 19 (strim wholeMaskString) Extension.zero .oui 0 []).2.headD
    Extension.zero

theorem wholeMask_stored : Stored wholeMask := by
  refine ⟨fun _ => true,[],[wholeMask],wholeMaskString,?_,List.mem_singleton.2 rfl⟩
  rfl

/-- A beacon with the one vendor element `001018 aa` and then the bytes `more`. -/
def vendorBeacon (more : List UInt8) : SearchAttr :=
  ⟨[221,4+UInt8.ofNat more.length,0x00,0x10,0x18,0xaa]++more,fun _ => 0,1,false,false,false,false⟩

theorem wholeMask_matches (more : List UInt8) (h : more = [] ∨ more = [7]) :
    Matches wholeMask (vendorBeacon more) := by
  have hcaps : CapsHold wholeMask (vendorBeacon more) := by
    constructor <;> intro hh <;> exact absurd hh (by decide)
  refine ⟨fun _ => ⟨0xaa::more,?_,fun _ => ⟨?_,?_⟩⟩,fun hh => absurd hh (by decide),hcaps⟩
  · rcases h with rfl | rfl <;> decide
  · change 1 ≤ more.length+1
    omega
  · change ∀ i < 1,_
    intro i hi _
    obtain rfl : i = 0 := by omega
    rfl

theorem search_iff_matches_iff_shortBeacon :
    (actionOuiSearch (some [wholeMask]) (vendorBeacon []) = true ↔
      ∃ e ∈ [wholeMask], Matches e (vendorBeacon [])) ↔
      ((∃ e ∈ [wholeMask], Matches e (vendorBeacon [])) →
        ∃ e ∈ [wholeMask], (Matches e (vendorBeacon []) ∧ ¬Strays e (vendorBeacon [])) ∨
          Crosses e (vendorBeacon [])) ∧
      ((∃ e ∈ [wholeMask], Crosses e (vendorBeacon [])) →
        ∃ e ∈ [wholeMask], Matches e (vendorBeacon [])) :=
  search_iff_matches_iff (vendorBeacon []) [wholeMask] (by simpa using wholeMask_stored)

/-- One more byte in the vendor element, past the data, and the extension is not found. -/
theorem not_search_iff_matches :
    ¬∀ (attr : SearchAttr) (list : List Extension), (∀ e ∈ list, Stored e) →
      (actionOuiSearch (some list) attr = true ↔ ∃ e ∈ list, Matches e attr) := by
  intro h
  have hiff := h (vendorBeacon [7]) [wholeMask] (by simpa using wholeMask_stored)
  have hfalse : actionOuiSearch (some [wholeMask]) (vendorBeacon [7]) = false := by decide
  have htrue := hiff.2 ⟨wholeMask,by simp,wholeMask_matches [7] (Or.inr rfl)⟩
  rw [hfalse] at htrue
  contradiction

end Sample

end ActionOui
end MarbleModules
