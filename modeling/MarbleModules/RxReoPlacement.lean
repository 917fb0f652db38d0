import Mathlib.Data.List.TakeWhile
import MarbleModules.RxReoInvariant

/-! The entry of a received management frame: allocated with a reference on the frame's pdev
before the reorder list is locked, then placed in the list or given back, whatever becomes of the
steps in between. Without a greater entry in the list the search leaves its result unset, which
the code uses all the same. -/
namespace MarbleModules
namespace RxReoPlacement

open RxReo

/-- A list entry with its address -/
structure Node where
  id : ℕ
  entry : Entry

/-- The list, the references of the module on each pdev and the entries that are allocated -/
structure World where
  list : List Node
  refs : ℕ → ℕ
  live : ℕ → Bool

/-- How the called steps turn out: the lookup of the frame's pdev, the reference on it, the
allocation of an entry, the wait count updates of the entries in the list, of a stale frame and of
the new entry, the insertion, the log time, and the lookup of the pdev in the clean-up. -/
structure Outcomes (w : World) where
  pdev : Option ℕ
  gotRef : Bool
  malloc : Option { id : ℕ // w.live id = false ∧ ∀ n ∈ w.list, n.id ≠ id }
  waitUpdated : ℕ → Bool
  staleHandled : Bool
  newUpdated : Bool
  inserted : Bool
  now : ℕ
  pdevAgain : Option ℕ

/-- `wlan_objmgr_pdev_try_get_ref`, when it succeeds -/
def World.getRef (w : World) (pdev : ℕ) : World :=
  { w with refs := Function.update w.refs pdev (w.refs pdev+1) }

/-- `wlan_objmgr_pdev_release_ref` -/
def World.releaseRef (w : World) (pdev : ℕ) : World :=
  { w with refs := Function.update w.refs pdev (w.refs pdev-1) }

/-- `qdf_mem_malloc`, when it succeeds -/
def World.malloc (w : World) (id : ℕ) : World := { w with live := Function.update w.live id true }

/-- `qdf_mem_free` -/
def World.free (w : World) (id : ℕ) : World := { w with live := Function.update w.live id false }

/-- `mgmt_rx_reo_prepare_list_entry` -/
def prepareListEntry (d : FrameDesc) (w : World) (o : Outcomes w) : World × Option Node :=
  match o.pdev with
  | none => (w,none)
  | some pdev =>
    if o.gotRef = false then (w,none)
    else
      match o.malloc with
      | none => ((w.getRef pdev).releaseRef pdev,none)
      | some id => ((w.getRef pdev).malloc id,some ⟨id,RxReo.prepareListEntry d 0⟩)

/-- The entry's frame is not later than the received one. -/
def notGreater (d : FrameDesc) (n : Node) : Bool :=
  compareGlobalTimestampsGte (globalTs d.time) (globalTs n.entry.time)

/-- How the first loop of `mgmt_rx_reo_update_list` ends: the entries it has passed, and the least
greater entry with all behind it unless an update has failed -/
structure Search where
  ok : Bool
  passed : List Node
  rest : List Node

/-- The first loop of `mgmt_rx_reo_update_list` -/
def search (cfg : Cfg) (d : FrameDesc) (waitUpdated : ℕ → Bool) : List Node → Search
  | [] => ⟨true,[],[]⟩
  | n::ns =>
    if notGreater d n = false then ⟨true,[],n::ns⟩
    else if waitUpdated n.id = false then
      let w := updateWaitCount d.waitCount n.entry.waitCount cfg.numLinks
      ⟨false,[{ n with entry := { n.entry with waitCount := w } }],ns⟩
    else
      let s := search cfg d waitUpdated ns
      ⟨s.ok,{ n with entry := lower cfg d.waitCount n.entry }::s.passed,s.rest⟩

/-- What `mgmt_rx_reo_update_list` does: it returns whether it has succeeded and whether the frame
is queued, or it follows a pointer that is null or was never set. -/
inductive Result
  | returned (succeeded isQueued : Bool) (w : World)
  | undefined

/-- The label `error`, with the frame not queued: the link is read from the new entry, which a
frame that is not for the host has none of. -/
def cleanUp {w₀ : World} (o : Outcomes w₀) (w : World) : Option Node → Result
  | none => .undefined
  | some new =>
    let w := match o.pdevAgain with
      | some pdev => w.releaseRef pdev
      | none => w
    .returned false false (w.free new.id)

/-- The second loop of `mgmt_rx_reo_update_list`, over the least greater entry and all behind it -/
def passRest (d : FrameDesc) (rest : List Node) : List Node :=
  rest.map fun n => { n with entry := RxReo.pass d.link n.entry }

/-- The part of `mgmt_rx_reo_update_list` under the lock. Where the search has found nothing,
`least_greater_entry` is not initialised. -/
def underLock (cfg : Cfg) (last : Option ℕ) (d : FrameDesc) {w₀ : World} (o : Outcomes w₀)
    (w : World) (new : Option Node) : Result :=
  let s := search cfg d o.waitUpdated w.list
  let w := { w with list := s.passed++s.rest }
  if s.ok = false then cleanUp o w new
  else if isStaleFrame last d.time ∧ o.staleHandled = false then cleanUp o w new
  else if d.frameType = .hostConsumed ∧ isStaleFrame last d.time = false then
    match new,s.rest with
    | some n,g::_ =>
      if o.newUpdated = false then cleanUp o w new
      else if o.inserted = false then cleanUp o w new
      else
        let e := { lower cfg g.entry.waitCount n.entry with insertionTs := o.now }
        .returned true true
          { w with list := s.passed++{ n with entry := e }::passRest d s.rest }
    | _,_ => .undefined
  else
    match s.rest with
    | [] => .undefined
    | rest => .returned true false { w with list := s.passed++passRest d rest }

/-- `mgmt_rx_reo_update_list` -/
def updateList (cfg : Cfg) (last : Option ℕ) (d : FrameDesc) (w : World) (o : Outcomes w) :
    Result :=
  if d.frameType = .hostConsumed then
    match prepareListEntry d w o with
    | (w,none) => .returned false false w
    | (w,some new) => underLock cfg last d o w (some new)
  else underLock cfg last d o w none

/-! ## What is claimed of the placement -/

/-- What an update leaves alone of an entry: where it is and the frame it stands for -/
def Node.frame (n : Node) : ℕ × ℕ × ℕ × ℕ := (n.id,n.entry.link,n.entry.pktCtr,n.entry.time)

def frames (l : List Node) : List (ℕ × ℕ × ℕ × ℕ) := l.map Node.frame

/-- A queued frame has its entry, which it keeps with the reference, once in the list before the
first greater one. Otherwise entry and reference are given back, and the list has the entries it
had. -/
def Placed (d : FrameDesc) {w : World} (o : Outcomes w) : Result → Prop
  | .returned _ true w' => ∃ pdev ∈ o.pdev,∃ id ∈ o.malloc,
      frames w'.list = frames (w.list.takeWhile (notGreater d))++
        (id.val,d.link,d.pktCtr,d.time)::frames (w.list.dropWhile (notGreater d)) ∧
      (w'.list.map Node.id).count id.val = 1 ∧
      w'.refs = (w.getRef pdev).refs ∧ w'.live = (w.malloc id).live
  | .returned _ false w' => frames w'.list = frames w.list ∧ w'.refs = w.refs ∧ w'.live = w.live
  | .undefined => False

/-- No entry can be prepared for the frame. -/
def Outcomes.Unprepared {w : World} (o : Outcomes w) : Prop :=
  o.pdev = none ∨ o.gotRef = false ∨ o.malloc = none

/-- The list has an entry with a greater time stamp. -/
def HasGreater (d : FrameDesc) (w : World) : Prop := ∃ n ∈ w.list,notGreater d n = false

/-- A step under the lock that the code gets to does not succeed. -/
def Fails (last : Option ℕ) (d : FrameDesc) (w : World) (o : Outcomes w) : Prop :=
  (∃ n ∈ w.list.takeWhile (notGreater d),o.waitUpdated n.id = false) ∨
    (isStaleFrame last d.time ∧ o.staleHandled = false) ∨
    (d.frameType = .hostConsumed ∧ isStaleFrame last d.time = false ∧ HasGreater d w ∧
      (o.newUpdated = false ∨ o.inserted = false))

/-- The entry of a host's frame cannot be prepared, or a step fails for a host's frame whose pdev
the clean-up finds again, or none fails, an entry is greater and the frame is not a stale one of
the host. -/
def Settles (last : Option ℕ) (d : FrameDesc) (w : World) (o : Outcomes w) : Prop :=
  (d.frameType = .hostConsumed ∧ o.Unprepared) ∨
    (Fails last d w o ∧ d.frameType = .hostConsumed ∧ o.pdevAgain = o.pdev) ∨
    (¬Fails last d w o ∧ HasGreater d w ∧
      ¬(d.frameType = .hostConsumed ∧ isStaleFrame last d.time = true))

/-! ## Preparing the entry -/

section Fields

variable (w : World) (pdev id : ℕ)

@[simp] theorem getRef_refs :
    (w.getRef pdev).refs = Function.update w.refs pdev (w.refs pdev+1) := rfl

@[simp] theorem releaseRef_refs :
    (w.releaseRef pdev).refs = Function.update w.refs pdev (w.refs pdev-1) := rfl

@[simp] theorem malloc_live : (w.malloc id).live = Function.update w.live id true := rfl

@[simp] theorem free_live : (w.free id).live = Function.update w.live id false := rfl

end Fields

@[simp] theorem releaseRef_getRef (w : World) (pdev : ℕ) :
    (w.getRef pdev).releaseRef pdev = w := by
  simp [World.getRef,World.releaseRef]

theorem prepareListEntry_unprepared {d : FrameDesc} {w : World} {o : Outcomes w}
    (h : o.Unprepared) : prepareListEntry d w o = (w,none) := by
  rw [prepareListEntry]
  cases hpdev : o.pdev with
  | none => rfl
  | some pdev =>
    cases hmalloc : o.malloc with
    | none => simp
    | some id =>
      have hgot : o.gotRef = false := by simpa [Outcomes.Unprepared,hpdev,hmalloc] using h
      exact if_pos hgot

theorem prepareListEntry_prepared {d : FrameDesc} {w : World} {o : Outcomes w}
    (h : ¬o.Unprepared) : ∃ pdev id,o.pdev = some pdev ∧ o.malloc = some id ∧
      prepareListEntry d w o =
        ((w.getRef pdev).malloc id,some ⟨id,RxReo.prepareListEntry d 0⟩) := by
  rw [Outcomes.Unprepared,not_or,not_or] at h
  obtain ⟨hpdev,hgot,hmalloc⟩ := h
  obtain ⟨pdev,hpdev⟩ := Option.ne_none_iff_exists'.mp hpdev
  obtain ⟨id,hmalloc⟩ := Option.ne_none_iff_exists'.mp hmalloc
  refine ⟨pdev,id,hpdev,hmalloc,?_⟩
  simp [prepareListEntry,hpdev,hmalloc,hgot]

/-! ## The two loops -/

@[simp] theorem frames_nil : frames [] = [] := rfl

@[simp] theorem frames_cons (n : Node) (l : List Node) :
    frames (n::l) = n.frame::frames l := rfl

@[simp] theorem frames_append (l l' : List Node) : frames (l++l') = frames l++frames l' :=
  List.map_append

theorem ids_eq (l : List Node) : l.map Node.id = (frames l).map Prod.fst := by
  rw [frames,List.map_map]
  rfl

@[simp] theorem frames_passRest (d : FrameDesc) (l : List Node) :
    frames (passRest d l) = frames l := by
  rw [frames,passRest,List.map_map]
  refine List.map_congr_left fun n _ => ?_
  simp only [Function.comp_apply,Node.frame,RxReo.pass]
  split <;> rfl

section Search

variable {cfg : Cfg} {d : FrameDesc} {waitUpdated : ℕ → Bool}

theorem search_frames (l : List Node) :
    frames ((search cfg d waitUpdated l).passed++(search cfg d waitUpdated l).rest) =
      frames l := by
  induction l with
  | nil => rfl
  | cons n ns ih =>
    rw [search]
    split_ifs
    · rfl
    · rfl
    · exact congrArg (n.frame::·) ih

theorem search_ok_iff (l : List Node) : (search cfg d waitUpdated l).ok = true ↔
    ∀ n ∈ l.takeWhile (notGreater d),waitUpdated n.id = true := by
  induction l with
  | nil => simp [search]
  | cons n ns ih =>
    rw [search]
    split_ifs with hgreater hfails
    · simp [hgreater]
    · simp [hgreater,hfails]
    · rw [Bool.not_eq_false] at hgreater hfails
      simpa [hgreater,hfails] using ih

/-- A search that succeeds passes the entries that are not greater, and finds the others. -/
theorem search_of_ok {l : List Node} (h : (search cfg d waitUpdated l).ok = true) :
    (search cfg d waitUpdated l).passed = (l.takeWhile (notGreater d)).map (fun n =>
        { n with entry := lower cfg d.waitCount n.entry }) ∧
      (search cfg d waitUpdated l).rest = l.dropWhile (notGreater d) := by
  induction l with
  | nil => exact ⟨rfl,rfl⟩
  | cons n ns ih =>
    rw [search] at h ⊢
    split_ifs at h ⊢ with hgreater hfails
    · simp [hgreater]
    · rw [Bool.not_eq_false] at hgreater
      obtain ⟨hpassed,hrest⟩ := ih h
      simp [hgreater,hpassed,hrest]

end Search

theorem hasGreater_iff {d : FrameDesc} {w : World} :
    HasGreater d w ↔ w.list.dropWhile (notGreater d) ≠ [] := by
  simp [HasGreater,List.dropWhile_eq_nil_iff]

/-! ## The ways through the lock -/

theorem not_unhandled {last : Option ℕ} {d : FrameDesc} {w : World} {o : Outcomes w}
    (h : ¬Fails last d w o) : ¬(isStaleFrame last d.time = true ∧ o.staleHandled = false) :=
  fun hstale => h (.inr (.inl hstale))

section Lock

variable (cfg : Cfg) {last : Option ℕ} {d : FrameDesc} {w : World} {o : Outcomes w}
  {w₁ : World} (hlist : w₁.list = w.list)
include hlist

theorem search_ok_of_not_fails (h : ¬Fails last d w o) :
    (search cfg d o.waitUpdated w₁.list).ok = true := by
  rw [search_ok_iff,hlist]
  intro n hn
  by_contra hfails
  exact h (.inl ⟨n,hn,by simpa using hfails⟩)

theorem search_rest_of_greater (hok : (search cfg d o.waitUpdated w₁.list).ok = true)
    (hgreater : HasGreater d w) :
    ∃ g rest,(search cfg d o.waitUpdated w₁.list).rest = g::rest := by
  rw [hasGreater_iff,← hlist,← (search_of_ok hok).2] at hgreater
  exact List.exists_cons_of_ne_nil hgreater

theorem search_rest_of_not_greater (hok : (search cfg d o.waitUpdated w₁.list).ok = true)
    (hgreater : ¬HasGreater d w) : (search cfg d o.waitUpdated w₁.list).rest = [] := by
  rwa [hasGreater_iff,not_not,← hlist,← (search_of_ok hok).2] at hgreater

/-- Every failing step ends in the clean-up, with the entries of the list as they were. -/
theorem underLock_of_fails {new : Option Node} (hnew : d.frameType = .hostConsumed → new ≠ none)
    (h : Fails last d w o) : ∃ w',frames w'.list = frames w.list ∧ w'.refs = w₁.refs ∧
      w'.live = w₁.live ∧ underLock cfg last d o w₁ new = cleanUp o w' new := by
  refine ⟨⟨(search cfg d o.waitUpdated w₁.list).passed++
    (search cfg d o.waitUpdated w₁.list).rest,w₁.refs,w₁.live⟩,?_,rfl,rfl,?_⟩
  · rw [search_frames,hlist]
  by_cases hok : (search cfg d o.waitUpdated w₁.list).ok = true
  · obtain ⟨n,hn,hfails⟩ | hstale | ⟨hhost,hfresh,hgreater,hstep⟩ := h
    · rw [search_ok_iff,hlist] at hok
      simp [hok n hn] at hfails
    · simp [underLock,hok,hstale]
    · obtain ⟨new,rfl⟩ := Option.ne_none_iff_exists'.mp (hnew hhost)
      obtain ⟨g,rest,hrest⟩ := search_rest_of_greater cfg hlist hok hgreater
      simp only [underLock,hok,hfresh,hhost,hrest]
      obtain hstep | hstep := hstep
      · simp [hstep]
      · simp [hstep]
  · rw [Bool.not_eq_true] at hok
    simp [underLock,hok]

section Succeeds

variable {new : Option Node} (h : ¬Fails last d w o)
include h

/-- Without a greater entry the code uses the pointer its search has not set. -/
theorem underLock_of_not_greater (hgreater : ¬HasGreater d w) :
    underLock cfg last d o w₁ new = .undefined := by
  have hok := search_ok_of_not_fails cfg hlist h
  have hrest := search_rest_of_not_greater cfg hlist hok hgreater
  have hstale := not_unhandled h
  by_cases hqueue : d.frameType = .hostConsumed ∧ isStaleFrame last d.time = false
  · cases new <;> simp [underLock,hok,hrest,hqueue]
  · simp [underLock,hok,hrest,hstale,hqueue]

theorem underLock_not_queued (hgreater : HasGreater d w)
    (hqueue : ¬(d.frameType = .hostConsumed ∧ isStaleFrame last d.time = false)) :
    ∃ w',frames w'.list = frames w.list ∧ w'.refs = w₁.refs ∧ w'.live = w₁.live ∧
      underLock cfg last d o w₁ new = .returned true false w' := by
  have hok := search_ok_of_not_fails cfg hlist h
  obtain ⟨g,rest,hrest⟩ := search_rest_of_greater cfg hlist hok hgreater
  have hstale := not_unhandled h
  refine ⟨⟨(search cfg d o.waitUpdated w₁.list).passed++
    passRest d (search cfg d o.waitUpdated w₁.list).rest,w₁.refs,w₁.live⟩,?_,rfl,rfl,?_⟩
  · rw [frames_append,frames_passRest,← frames_append,search_frames,hlist]
  · simp [underLock,hok,hrest,hstale,hqueue]

theorem underLock_queued {n : Node} (hhost : d.frameType = .hostConsumed)
    (hfresh : isStaleFrame last d.time = false) (hgreater : HasGreater d w) :
    ∃ w',frames w'.list = frames (w.list.takeWhile (notGreater d))++
        n.frame::frames (w.list.dropWhile (notGreater d)) ∧
      w'.refs = w₁.refs ∧ w'.live = w₁.live ∧
      underLock cfg last d o w₁ (some n) = .returned true true w' := by
  have hok := search_ok_of_not_fails cfg hlist h
  obtain ⟨g,rest,hrest⟩ := search_rest_of_greater cfg hlist hok hgreater
  obtain ⟨hpassed,hdrop⟩ := search_of_ok hok
  have hsteps : o.newUpdated = true ∧ o.inserted = true := by
    by_contra hsteps
    rw [not_and_or,Bool.not_eq_true,Bool.not_eq_true] at hsteps
    exact h (.inr (.inr ⟨hhost,hfresh,hgreater,hsteps⟩))
  let e := { lower cfg g.entry.waitCount n.entry with insertionTs := o.now }
  refine ⟨⟨(search cfg d o.waitUpdated w₁.list).passed++{ n with entry := e }::
    passRest d (search cfg d o.waitUpdated w₁.list).rest,w₁.refs,w₁.live⟩,?_,rfl,rfl,?_⟩
  · rw [frames_append,frames_cons,frames_passRest,hdrop,hpassed,hlist]
    refine congrArg (·++_) ?_
    rw [frames,List.map_map]
    rfl
  · simp [underLock,hok,hrest,hfresh,hhost,hsteps,e]

end Succeeds

end Lock

/-! ## Entry and reference -/

section Given

variable {d : FrameDesc} {w : World} {o : Outcomes w} {pdev : ℕ}
  {id : { id : ℕ // w.live id = false ∧ ∀ n ∈ w.list,n.id ≠ id }}

theorem free_malloc : Function.update (w.malloc id.val).live id.val false = w.live := by
  rw [malloc_live,Function.update_idem,Function.update_eq_self_iff]
  exact id.2.1.symm

theorem malloc_live_ne : (w.malloc id.val).live ≠ w.live := by
  intro h
  have hlive := congrFun h id.val
  rw [malloc_live,Function.update_self,id.2.1] at hlive
  exact absurd hlive (by simp)

theorem getRef_refs_ne : (w.getRef pdev).refs ≠ w.refs := by
  intro h
  have hrefs := congrFun h pdev
  rw [getRef_refs,Function.update_self] at hrefs
  omega

/-- Only a release on the same pdev undoes a reference. -/
theorem releaseRef_refs_iff (w : World) (pdev pdev' : ℕ) :
    ((w.getRef pdev).releaseRef pdev').refs = w.refs ↔ pdev' = pdev := by
  constructor
  · intro h
    by_contra hne
    have hrefs := congrFun h pdev
    rw [releaseRef_refs,Function.update_of_ne (Ne.symm hne),getRef_refs,
      Function.update_self] at hrefs
    omega
  · rintro rfl
    rw [releaseRef_getRef]

/-- The clean-up gives the entry back in any case, and the reference when it finds the pdev. -/
theorem cleanUp_placed_iff {w' : World} {e : Entry} (hframes : frames w'.list = frames w.list)
    (hrefs : w'.refs = (w.getRef pdev).refs) (hlive : w'.live = (w.malloc id.val).live) :
    Placed d o (cleanUp o w' (some ⟨id,e⟩)) ↔ o.pdevAgain = some pdev := by
  have hfree : Function.update w'.live id.val false = w.live := by
    rw [hlive]
    exact free_malloc
  cases hagain : o.pdevAgain with
  | none =>
    simp only [cleanUp,hagain,Placed,World.free,hrefs,reduceCtorEq,iff_false]
    exact fun h => getRef_refs_ne h.2.1
  | some pdev' =>
    have hiff := releaseRef_refs_iff w pdev pdev'
    rw [releaseRef_refs,← hrefs] at hiff
    simp only [cleanUp,hagain,Placed,World.free,World.releaseRef,hframes,hfree,true_and,and_true,
      Option.some_inj]
    exact hiff

/-- The new entry, which is not in the list, is in it once when it has been inserted. -/
theorem count_inserted (p : Node → Bool) (x : ℕ × ℕ × ℕ) :
    ((frames (w.list.takeWhile p)++(id.val,x)::frames (w.list.dropWhile p)).map
      Prod.fst).count id.val = 1 := by
  have hfresh : ∀ l ⊆ w.list,(l.map Node.id).count id.val = 0 := by
    intro l hl
    rw [List.count_eq_zero,List.mem_map]
    rintro ⟨n,hn,heq⟩
    exact id.2.2 n (hl hn) heq
  rw [List.map_append,List.map_cons,← ids_eq,← ids_eq,List.count_append,List.count_cons_self,
    hfresh _ (List.takeWhile_subset p),hfresh _ (List.dropWhile_subset p)]

end Given

/-! ## The update -/

section Update

variable (cfg : Cfg) (last : Option ℕ) {d : FrameDesc} {w : World} {o : Outcomes w}

theorem updateList_placed_iff_of_host (hhost : d.frameType = .hostConsumed) :
    Placed d o (updateList cfg last d w o) ↔ Settles last d w o := by
  by_cases hprepared : o.Unprepared
  · simp only [updateList,hhost,if_true,prepareListEntry_unprepared hprepared,Settles,hprepared,
      true_and,true_or,iff_true]
    exact ⟨rfl,rfl,rfl⟩
  obtain ⟨pdev,id,hpdev,hmalloc,heq⟩ := prepareListEntry_prepared (d := d) hprepared
  have hlist : ((w.getRef pdev).malloc id).list = w.list := rfl
  simp only [updateList,hhost,if_true,heq,Settles,hprepared,and_false,false_or,true_and]
  by_cases hfails : Fails last d w o
  · obtain ⟨w',hframes,hrefs,hlive,hclean⟩ :=
      underLock_of_fails cfg hlist (fun _ => Option.some_ne_none _) hfails
    rw [hclean,cleanUp_placed_iff hframes hrefs hlive]
    simp [hfails,hpdev]
  by_cases hgreater : HasGreater d w
  · cases hstale : isStaleFrame last d.time with
    | true =>
      obtain ⟨w',hframes,hrefs,hlive,hret⟩ :=
        underLock_not_queued cfg hlist hfails hgreater (by simp [hstale])
      rw [hret]
      simp only [hfails,not_true,and_false,false_and,or_false,iff_false]
      exact fun h => malloc_live_ne (hlive.symm.trans h.2.2)
    | false =>
      obtain ⟨w',hframes,hrefs,hlive,hret⟩ :=
        underLock_queued cfg hlist hfails hhost hstale hgreater
      rw [hret]
      simp only [hfails,hgreater]
      refine iff_of_true ⟨pdev,hpdev,id,hmalloc,hframes,?_,hrefs,hlive⟩ (by simp)
      rw [ids_eq,hframes]
      exact count_inserted _ _
  · rw [underLock_of_not_greater cfg hlist hfails hgreater]
    simp [hfails,hgreater,Placed]

theorem updateList_placed_iff_of_not_host (hhost : d.frameType ≠ .hostConsumed) :
    Placed d o (updateList cfg last d w o) ↔ Settles last d w o := by
  simp only [updateList,hhost,if_false,Settles,false_and,false_or,and_false,not_false_eq_true,
    and_true]
  by_cases hfails : Fails last d w o
  · obtain ⟨w',-,-,-,hclean⟩ := underLock_of_fails cfg rfl (by simp [hhost]) hfails
    rw [hclean]
    simp [hfails,cleanUp,Placed]
  by_cases hgreater : HasGreater d w
  · obtain ⟨w',hframes,hrefs,hlive,hret⟩ :=
      underLock_not_queued cfg rfl hfails hgreater (by simp [hhost])
    rw [hret]
    exact iff_of_true ⟨hframes,hrefs,hlive⟩ ⟨hfails,hgreater⟩
  · rw [underLock_of_not_greater cfg rfl hfails hgreater]
    simp [hgreater,Placed]

/-- An update that succeeds treats the entries as the reorder list of the other operations has
it. -/
theorem search_lowerOlder {l : List Node} (hok : (search cfg d o.waitUpdated l).ok = true) :
    lowerOlder cfg d (l.map Node.entry) = ((search cfg d o.waitUpdated l).passed.map Node.entry,
      (search cfg d o.waitUpdated l).rest.map Node.entry) := by
  induction l with
  | nil => rfl
  | cons n ns ih =>
    rw [search] at hok ⊢
    rw [List.map_cons,lowerOlder,← notGreater]
    split_ifs at hok ⊢
    · rfl
    · simp [ih hok]

theorem cleanUp_ne {w₁ w' : World} {new : Option Node} {q : Bool} :
    cleanUp o w₁ new ≠ .returned true q w' := by
  cases new <;> simp [cleanUp]

theorem passRest_entries (l : List Node) :
    (passRest d l).map Node.entry = (l.map Node.entry).map (RxReo.pass d.link) := by
  rw [passRest,List.map_map,List.map_map]
  rfl

theorem underLock_refines {w₁ w' : World} {new : Option Node} {q : Bool}
    (hnew : ∀ n ∈ new,n.entry = RxReo.prepareListEntry d 0)
    (h : underLock cfg last d o w₁ new = .returned true q w') :
    w'.list.map Node.entry = (RxReo.updateList cfg
      ⟨w₁.list.map Node.entry,last,[],false⟩ d true o.now).list := by
  simp only [underLock] at h
  split at h
  · exact absurd h cleanUp_ne
  next hok =>
  split at h
  · exact absurd h cleanUp_ne
  rw [Bool.not_eq_false] at hok
  split at h
  · next hqueue =>
    split at h
    · next n g rest hrest =>
      split_ifs at h
      · exact absurd h cleanUp_ne
      · exact absurd h cleanUp_ne
      · cases h
        simp [RxReo.updateList,search_lowerOlder cfg hok,hqueue,hrest,passRest_entries,newEntry,
          hnew n rfl]
        rfl
    · cases h
  · next hqueue =>
    split at h
    · cases h
    · cases h
      simp [RxReo.updateList,search_lowerOlder cfg hok,hqueue,passRest_entries]

theorem updateList_refines {w' : World} {q : Bool}
    (h : updateList cfg last d w o = .returned true q w') :
    w'.list.map Node.entry = (RxReo.updateList cfg
      ⟨w.list.map Node.entry,last,[],false⟩ d true o.now).list := by
  rw [updateList] at h
  split_ifs at h
  · by_cases hprepared : o.Unprepared
    · rw [prepareListEntry_unprepared hprepared] at h
      cases h
    · obtain ⟨pdev,id,-,-,heq⟩ := prepareListEntry_prepared (d := d) hprepared
      rw [heq] at h
      have hentries := underLock_refines cfg last (by simp) h
      exact hentries
  · exact underLock_refines cfg last (by simp) h

end Update

/-- Exactly when an update places or releases the frame: every other input leaks the entry or the
reference, or reaches a pointer that is null or was never set. -/
theorem updateList_placed_iff (cfg : Cfg) (last : Option ℕ) (d : FrameDesc) (w : World)
    (o : Outcomes w) : Placed d o (updateList cfg last d w o) ↔ Settles last d w o := by
  by_cases hhost : d.frameType = .hostConsumed
  · exact updateList_placed_iff_of_host cfg last hhost
  · exact updateList_placed_iff_of_not_host cfg last hhost

/-- A frame at time 5 that waits for nothing -/
def frameAt5 (frameType : FrameType) : FrameDesc := ⟨frameType,0,0,5,⟨fun _ => 0,0⟩⟩

def empty : World := ⟨[],fun _ => 0,fun _ => false⟩

/-- An entry at time 10, with its reference on the pdev 0 -/
def oneEntry : World :=
  ⟨[⟨1,RxReo.prepareListEntry ⟨.hostConsumed,0,0,10,⟨fun _ => 0,0⟩⟩ 0⟩],
    fun pdev => if pdev = 0 then 1 else 0,fun id => id = 1⟩

/-- Every step succeeds, but for the handling of a stale frame. -/
def outcomes {w : World} (staleHandled : Bool)
    (id : { id : ℕ // w.live id = false ∧ ∀ n ∈ w.list,n.id ≠ id }) : Outcomes w :=
  ⟨some 0,true,some id,fun _ => true,staleHandled,true,true,0,some 0⟩

/-- The first frame of a list; a stale frame, whose entry stays allocated with its reference; and a
frame of the firmware with a failing step. -/
theorem not_placed_empty_stale_and_failing :
    let first : Outcomes empty := outcomes true ⟨2,by simp [empty]⟩
    let stale (handled : Bool) : Outcomes oneEntry := outcomes handled ⟨2,by simp [oneEntry]⟩
    ¬Placed (frameAt5 .hostConsumed) first
        (updateList twoLinks none (frameAt5 .hostConsumed) empty first) ∧
      ¬Placed (frameAt5 .hostConsumed) (stale true)
        (updateList twoLinks (some 8) (frameAt5 .hostConsumed) oneEntry (stale true)) ∧
      ¬Placed (frameAt5 .fwConsumed) (stale false)
        (updateList twoLinks (some 8) (frameAt5 .fwConsumed) oneEntry (stale false)) := by
  refine ⟨fun h => h,fun h => ?_,fun h => h⟩
  have hlive := congrFun h.2.2 2
  revert hlive
  decide

end RxReoPlacement
end MarbleModules
