import MarbleModules.LinkWalk

/-! The state-machine engine of the WLAN host driver: the check of a state table, and the
transitions, which run the exit and entry functions along the links of the table. -/
namespace MarbleModules
namespace SmEngine

open LinkWalk

/-- `WLAN_SM_ENGINE_STATE_NONE` -/
def stateNone : UInt8 := 255

/-- `WLAN_SM_ENGINE_MAX_STATES` -/
def maxStates : ℕ := 200

/-- `struct wlan_sm_state_info`; of a function pointer only whether it is NULL. -/
structure StateInfo where
  state : UInt8
  parentState : UInt8
  initialSubstate : UInt8
  hasSubstates : Bool
  entry : Bool
  exit : Bool

/-- The array `state_info` of `num_states` entries. -/
abbrev Table := List StateInfo

/-- An access to the array. -/
def Table.at (table : Table) (s : UInt8) : Option StateInfo := table[s.toNat]?

structure Sm where
  curState : UInt8
  stateInfo : Table
  inStateTransition : Bool

/-- A call of a state's exit or entry function. -/
inductive Call
  | exit (s : UInt8)
  | entry (s : UInt8)
  deriving DecidableEq

inductive Status
  | success | failure
  deriving DecidableEq

/-- The loop of `wlan_sm_validate_state_info` over the parents. -/
def validateLoop (table : Table) (visited : Finset ℕ) (state : UInt8) : Outcome Status :=
  if state = stateNone then .done .success
  else if _hv : state.toNat ∈ visited then .done .failure
  else
    match table.at state with
    | none => .outside
    | some info =>
      if info.parentState ≠ stateNone then
        match table.at info.parentState with
        | none => .outside
        | some next =>
          if next.hasSubstates = false then .done .failure
          else validateLoop table (insert state.toNat visited) info.parentState
      else validateLoop table (insert state.toNat visited) info.parentState
termination_by (Finset.range 256 \ visited).card
decreasing_by
  all_goals
    apply Finset.card_lt_card
    refine (Finset.ssubset_iff_of_subset
      (Finset.sdiff_subset_sdiff le_rfl (Finset.subset_insert _ _))).mpr ⟨state.toNat,?_,?_⟩
    · simp only [Finset.mem_sdiff,Finset.mem_range,_hv,not_false_eq_true,and_true]
      exact state.toNat_lt
    · simp only [Finset.mem_sdiff,Finset.mem_insert_self,not_true,and_false,not_false_eq_true]

/-- `wlan_sm_validate_state_info` -/
def validateStateInfo (table : Table) (i : ℕ) : Outcome Status :=
  match table[i]? with
  | none => .outside
  | some info =>
    if maxStates ≤ info.state.toNat ∨ info.state.toNat ≠ i then .done .failure
    else validateLoop table ∅ info.state

/-- The loop of `wlan_sm_create` over the entries from `i` on. -/
def validateAll (table : Table) : ℕ → ℕ → Outcome Status
  | 0,_ => .done .success
  | n+1,i => (validateStateInfo table i).bind fun st =>
    if st = .success then validateAll table n (i+1) else .done .failure

/-- `wlan_sm_create`; `none` is the NULL it returns for a table it refuses. -/
def create (initState : UInt8) (table : Table) : Outcome (Option Sm) :=
  if maxStates < table.length then .done none
  else (validateAll table table.length 0).bind fun st =>
    if st = .success then .done (some ⟨initState,table,false⟩) else .done none

/-- The entry whose name the trace prints for a state: its parent's, when it has one. -/
def superstate (table : Table) (s : UInt8) : Option StateInfo :=
  (table.at s).bind fun info =>
    if info.parentState ≠ stateNone then table.at info.parentState else some info

def callExit (s : UInt8) (info : StateInfo) (calls : List Call) : List Call :=
  if info.exit then calls++[.exit s] else calls

/-- The body of the second loop: the entry function, then `sm->cur_state`. -/
def callEntry (s : UInt8) (info : StateInfo) (p : Sm × List Call) : Sm × List Call :=
  ({p.1 with curState := s},if info.entry then p.2++[.entry s] else p.2)

/-- The check of the target. -/
def Valid (table : Table) (state : UInt8) : Prop :=
  ¬(state = stateNone ∨ maxStates ≤ state.toNat ∨ table.length ≤ state.toNat)

instance (table : Table) (state : UInt8) : Decidable (Valid table state) :=
  inferInstanceAs (Decidable (¬_))

/-- `wlan_sm_transition_to`, with the functions it has called. -/
def transitionTo (fuel : ℕ) (sm : Sm) (state : UInt8) : Outcome (Sm × List Call) :=
  if sm.inStateTransition then .done (sm,[])
  else
    let sm := {sm with inStateTransition := true}
    -- the flag stays set when the target is refused
    if ¬Valid sm.stateInfo state then .done (sm,[])
    else
      match superstate sm.stateInfo sm.curState,superstate sm.stateInfo state with
      | some _,some _ =>
        (walk sm.stateInfo.at StateInfo.parentState stateNone callExit fuel sm.curState []).bind
          fun calls =>
            (walk sm.stateInfo.at StateInfo.initialSubstate stateNone callEntry fuel state
              (sm,calls)).bind fun p => .done ({p.1 with inStateTransition := false},p.2)
      | _,_ => .outside

/-- A state and its ancestors, innermost first. -/
abbrev Hierarchy (table : Table) : UInt8 → List (UInt8 × StateInfo) → Prop :=
  Path table.at StateInfo.parentState stateNone

/-- A state, its initial substate, the initial substate of that and so on. -/
abbrev Descent (table : Table) : UInt8 → List (UInt8 × StateInfo) → Prop :=
  Path table.at StateInfo.initialSubstate stateNone

def exitCalls (l : List (UInt8 × StateInfo)) : List Call :=
  (l.filter fun p => p.2.exit).map fun p => .exit p.1

def entryCalls (l : List (UInt8 × StateInfo)) : List Call :=
  (l.filter fun p => p.2.entry).map fun p => .entry p.1

/-- What a request is for: a valid target is entered, with each exit and entry function called
once, and another target changes nothing. -/
def Performs (sm : Sm) (state : UInt8) (sm' : Sm) (calls : List Call) : Prop :=
  (Valid sm.stateInfo state → ∃ exits entries,
    Hierarchy sm.stateInfo sm.curState exits ∧ Descent sm.stateInfo state entries ∧
    calls = exitCalls exits++entryCalls entries ∧ calls.Nodup ∧
    sm' = {sm with curState := (entries.map Prod.fst).getLastD state}) ∧
  (¬Valid sm.stateInfo state → calls = [] ∧ sm' = sm)

/-- Every request of the list returns and is performed. -/
def AllPerformed : Sm → List UInt8 → Prop
  | _,[] => True
  | sm,state::targets => ∃ fuel sm' calls,
      transitionTo fuel sm state = .done (sm',calls) ∧ Performs sm state sm' calls ∧
        AllPerformed sm' targets

/-- A machine between two requests: its table was accepted. -/
structure Idle (sm : Sm) : Prop where
  idle : sm.inStateTransition = false
  bound : sm.stateInfo.length ≤ maxStates
  hierarchy : ∀ s info,sm.stateInfo.at s = some info → ∃ l,Hierarchy sm.stateInfo s l

theorem hierarchy_of_validateLoop (table : Table) (visited : Finset ℕ) (s : UInt8)
    (h : validateLoop table visited s = .done .success) : ∃ l,Hierarchy table s l := by
  fun_induction validateLoop table visited s with
  | case1 => exact ⟨[],.stop⟩
  | case2 => nomatch h
  | case3 => nomatch h
  | case4 => nomatch h
  | case5 => nomatch h
  | case6 _ _ hne _ info hi _ _ _ _ ih =>
    obtain ⟨l,hl⟩ := ih h
    exact ⟨_,.cons hne hi hl⟩
  | case7 _ _ hne _ info hi _ ih =>
    obtain ⟨l,hl⟩ := ih h
    exact ⟨_,.cons hne hi hl⟩

theorem hierarchy_of_validateStateInfo {table : Table} {s : UInt8}
    (h : validateStateInfo table s.toNat = .done .success) : ∃ l,Hierarchy table s l := by
  rw [validateStateInfo] at h
  split at h
  · cases h
  · split at h
    · cases h
    · rename_i info _ hbad
      obtain ⟨-,hs⟩ := not_or.mp hbad
      rw [UInt8.toNat_inj.mp (not_not.mp hs)] at h
      exact hierarchy_of_validateLoop table ∅ s h

theorem validated_of_validateAll {table : Table} {n i : ℕ}
    (h : validateAll table n i = .done .success) :
    ∀ k,i ≤ k → k < i+n → validateStateInfo table k = .done .success := by
  induction n generalizing i with
  | zero =>
    intro k hik hk
    omega
  | succ n ih =>
    obtain ⟨st,hst,hrest⟩ := Outcome.bind_eq_done.mp h
    split at hrest
    · rename_i hok
      intro k hik hk
      by_cases hk' : k = i
      · rw [hk',hst,hok]
      · exact ih hrest k (by omega) (by omega)
    · cases hrest

/-- What the check of the table is worth: the parents of every state end. -/
theorem idle_of_create {initState : UInt8} {table : Table} {sm : Sm}
    (h : create initState table = .done (some sm)) : sm = ⟨initState,table,false⟩ ∧ Idle sm := by
  rw [create] at h
  split at h
  · cases h
  · rename_i hbound
    obtain ⟨st,hst,hsm⟩ := Outcome.bind_eq_done.mp h
    split at hsm
    · rename_i hok
      rw [hok] at hst
      obtain rfl := Option.some.inj (Outcome.done.inj hsm)
      refine ⟨rfl,rfl,not_lt.mp hbound,fun s info hs => ?_⟩
      have hlt : s.toNat < table.length := (List.getElem?_eq_some_iff.mp hs).1
      exact hierarchy_of_validateStateInfo
        (validated_of_validateAll hst s.toNat (Nat.zero_le _) (by omega))
    · cases hsm

theorem superstate_isSome {table : Table} {s : UInt8} {l : List (UInt8 × StateInfo)}
    (h : Hierarchy table s l) (hs : s ≠ stateNone) : (superstate table s).isSome := by
  obtain ⟨info,t,-,hi,ht⟩ := h.inv hs
  rw [superstate,hi,Option.bind_some]
  split
  · rename_i hp
    obtain ⟨next,_,-,hn,-⟩ := ht.inv hp
    rw [hn,Option.isSome_some]
  · exact Option.isSome_some

theorem foldl_callExit (l : List (UInt8 × StateInfo)) (calls : List Call) :
    l.foldl (fun c p => callExit p.1 p.2 c) calls = calls++exitCalls l := by
  induction l generalizing calls with
  | nil => exact (List.append_nil calls).symm
  | cons p l ih =>
    rw [List.foldl_cons,ih,callExit,exitCalls,exitCalls,List.filter_cons]
    cases p.2.exit <;> simp

theorem foldl_callEntry (l : List (UInt8 × StateInfo)) (sm : Sm) (calls : List Call) :
    l.foldl (fun q p => callEntry p.1 p.2 q) (sm,calls) =
      ({sm with curState := (l.map Prod.fst).getLastD sm.curState},calls++entryCalls l) := by
  induction l generalizing sm calls with
  | nil => exact congrArg (Prod.mk sm) (List.append_nil calls).symm
  | cons p l ih =>
    rw [List.foldl_cons,callEntry,ih,List.map_cons,List.getLastD_cons,entryCalls,entryCalls,
      List.filter_cons]
    cases p.2.entry <;> simp only [if_true,List.map_cons,List.append_assoc,
      List.singleton_append,Bool.false_eq_true,if_false]

theorem nodup_map_filter {l : List (UInt8 × StateInfo)} (q : UInt8 × StateInfo → Bool)
    {f : UInt8 → Call} (hf : Function.Injective f) (h : (l.map Prod.fst).Nodup) :
    ((l.filter q).map fun p => f p.1).Nodup := by
  have hsub : ((l.filter q).map Prod.fst).Nodup := h.sublist (List.filter_sublist.map Prod.fst)
  have hh := hsub.map hf
  rwa [List.map_map] at hh

theorem nodup_calls {table : Table} {s t : UInt8} {exits entries : List (UInt8 × StateInfo)}
    (hx : Hierarchy table s exits) (he : Descent table t entries) :
    (exitCalls exits++entryCalls entries).Nodup := by
  refine List.nodup_append.mpr ⟨nodup_map_filter _ (fun _ _ => Call.exit.inj) hx.nodup,
    nodup_map_filter _ (fun _ _ => Call.entry.inj) he.nodup,?_⟩
  rintro c hc d hd rfl
  obtain ⟨p,_,hp⟩ := List.mem_map.mp hc
  obtain ⟨q,_,hq⟩ := List.mem_map.mp hd
  exact Call.noConfusion (hp.trans hq.symm)

theorem transitionTo_invalid {sm : Sm} {state : UInt8} (hi : sm.inStateTransition = false)
    (hv : ¬Valid sm.stateInfo state) (fuel : ℕ) :
    transitionTo fuel sm state = .done ({sm with inStateTransition := true},[]) := by
  rw [transitionTo,hi]
  exact if_pos hv

theorem at_isSome_iff {table : Table} {s : UInt8} :
    (∃ info,table.at s = some info) ↔ s.toNat < table.length := by
  constructor
  · rintro ⟨info,hh⟩
    exact (List.getElem?_eq_some_iff.mp hh).1
  · intro hlt
    exact ⟨_,List.getElem?_eq_getElem hlt⟩

theorem Idle.ne_none {sm : Sm} (hi : Idle sm) {s : UInt8} (h : s.toNat < sm.stateInfo.length) :
    s ≠ stateNone := by
  rintro rfl
  have hb := hi.bound
  change 255 < sm.stateInfo.length at h
  rw [maxStates] at hb
  omega

/-- A valid target is entered when its initial substates end. -/
theorem transitionTo_valid {sm : Sm} {state : UInt8} {exits entries : List (UInt8 × StateInfo)}
    (hi : Idle sm) (hv : Valid sm.stateInfo state) (hcur : sm.curState.toNat < sm.stateInfo.length)
    (hx : Hierarchy sm.stateInfo sm.curState exits) (he : Descent sm.stateInfo state entries) :
    transitionTo (exits.length+entries.length) sm state =
      .done ({sm with curState := (entries.map Prod.fst).getLastD state},
        exitCalls exits++entryCalls entries) := by
  have hne : state ≠ stateNone := fun hz => hv (.inl hz)
  obtain ⟨_,l,hl,hat,-⟩ := he.inv hne
  obtain ⟨up,hup⟩ := hi.hierarchy state _ hat
  obtain ⟨u,hu⟩ := Option.isSome_iff_exists.mp (superstate_isSome hx (hi.ne_none hcur))
  obtain ⟨v,hsup⟩ := Option.isSome_iff_exists.mp (superstate_isSome hup hne)
  rw [transitionTo,hi.idle]
  simp only [Bool.false_eq_true,if_false,hv,not_true,hu,hsup]
  rw [hx.walk_eq (Nat.le_add_right _ _),Outcome.bind,he.walk_eq (Nat.le_add_left _ _),
    Outcome.bind,foldl_callExit,foldl_callEntry,hl]
  simp only [List.map_cons,List.getLastD_cons,List.nil_append]

/-- The engine reads the entry of the current state. -/
theorem cur_lt_of_transitionTo {sm : Sm} {state : UInt8} {fuel : ℕ} {q : Sm × List Call}
    (hi : Idle sm) (hv : Valid sm.stateInfo state) (h : transitionTo fuel sm state = .done q) :
    sm.curState.toNat < sm.stateInfo.length := by
  by_contra hcur
  have hnone : superstate sm.stateInfo sm.curState = none := by
    rw [superstate,Table.at,List.getElem?_eq_none (not_lt.mp hcur),Option.bind_none]
  rw [transitionTo,hi.idle] at h
  simp only [Bool.false_eq_true,if_false,hv,not_true,hnone] at h
  cases h

/-- A request returns only when the initial substates end: the entry loop reaches the stop. -/
theorem descent_of_transitionTo {sm : Sm} {state : UInt8} {fuel : ℕ} {q : Sm × List Call}
    (hi : Idle sm) (hv : Valid sm.stateInfo state) (h : transitionTo fuel sm state = .done q) :
    ∃ entries,Descent sm.stateInfo state entries := by
  rw [transitionTo,hi.idle] at h
  simp only [Bool.false_eq_true,if_false,hv,not_true] at h
  split at h
  · obtain ⟨calls,-,hrest⟩ := Outcome.bind_eq_done.mp h
    obtain ⟨p,hp,-⟩ := Outcome.bind_eq_done.mp hrest
    obtain ⟨entries,he,-⟩ := path_of_walk hp
    exact ⟨entries,he⟩
  · cases h

/-- The target is a state and its initial substates end inside the table. -/
def Enters (table : Table) (state : UInt8) : Prop :=
  Valid table state ∧ ∃ entries,Descent table state entries

theorem enters_of_performs {sm sm' : Sm} {state : UInt8} {fuel : ℕ} {calls : List Call}
    (hi : Idle sm) (h : transitionTo fuel sm state = .done (sm',calls))
    (hp : Performs sm state sm' calls) :
    sm.curState.toNat < sm.stateInfo.length ∧ Enters sm.stateInfo state := by
  by_cases hv : Valid sm.stateInfo state
  · exact ⟨cur_lt_of_transitionTo hi hv h,hv,descent_of_transitionTo hi hv h⟩
  · rw [transitionTo_invalid hi.idle hv] at h
    have hflag := congrArg (fun q => q.1.inStateTransition) (Outcome.done.inj h)
    simp only [(hp.2 hv).2,hi.idle] at hflag
    cases hflag

theorem performs_of_enters {sm : Sm} {state : UInt8} (hi : Idle sm)
    (hcur : sm.curState.toNat < sm.stateInfo.length) (h : Enters sm.stateInfo state) :
    ∃ fuel sm' calls,transitionTo fuel sm state = .done (sm',calls) ∧
      Performs sm state sm' calls := by
  obtain ⟨hv,entries,he⟩ := h
  obtain ⟨_,hat⟩ := at_isSome_iff.mpr hcur
  obtain ⟨exits,hx⟩ := hi.hierarchy _ _ hat
  exact ⟨_,_,_,transitionTo_valid hi hv hcur hx he,
    fun _ => ⟨exits,entries,hx,he,rfl,nodup_calls hx he,rfl⟩,fun hn => absurd hv hn⟩

/-- After a request that was performed the machine is idle, in a state of the same table. -/
theorem Performs.idle {sm sm' : Sm} {state : UInt8} {calls : List Call} (hi : Idle sm)
    (hv : Valid sm.stateInfo state) (hp : Performs sm state sm' calls) :
    Idle sm' ∧ sm'.stateInfo = sm.stateInfo ∧ sm'.curState.toNat < sm'.stateInfo.length := by
  obtain ⟨exits,entries,-,he,-,-,rfl⟩ := hp.1 hv
  refine ⟨⟨hi.idle,hi.bound,hi.hierarchy⟩,rfl,at_isSome_iff.mp ?_⟩
  obtain ⟨info,l,rfl,-,-⟩ := he.inv fun hz => hv (.inl hz)
  have hlast : ∃ p ∈ (state,info)::l,
      (((state,info)::l).map Prod.fst).getLastD state = p.1 := by
    refine ⟨((state,info)::l).getLast (List.cons_ne_nil _ _),List.getLast_mem _,?_⟩
    rw [List.getLastD_eq_getLast?,List.getLast?_map,
      List.getLast?_eq_some_getLast (List.cons_ne_nil _ _)]
    rfl
  obtain ⟨p,hp,heq⟩ := hlast
  exact ⟨p.2,heq ▸ he.lookup_of_mem hp⟩

theorem allPerformed_iff {sm : Sm} (hi : Idle sm) (targets : List UInt8) :
    AllPerformed sm targets ↔
      (targets ≠ [] → sm.curState.toNat < sm.stateInfo.length) ∧
        ∀ state ∈ targets,Enters sm.stateInfo state := by
  induction targets generalizing sm with
  | nil => simp [AllPerformed]
  | cons state targets ih =>
    constructor
    · rintro ⟨fuel,sm',calls,hh,hp,hrest⟩
      obtain ⟨hcur,hent⟩ := enters_of_performs hi hh hp
      obtain ⟨hi',htab,-⟩ := hp.idle hi hent.1
      refine ⟨fun _ => hcur,fun s hs => ?_⟩
      rcases List.mem_cons.mp hs with rfl | hs
      · exact hent
      · have hs' := ((ih hi').mp hrest).2 s hs
        rwa [htab] at hs'
    · rintro ⟨hcur,hall⟩
      have hent := hall state List.mem_cons_self
      obtain ⟨fuel,sm',calls,hh,hp⟩ := performs_of_enters hi (hcur (by simp)) hent
      obtain ⟨hi',htab,hcur'⟩ := hp.idle hi hent.1
      refine ⟨fuel,sm',calls,hh,hp,(ih hi').mpr ⟨fun _ => hcur',fun s hs => ?_⟩⟩
      have hs' := hall s (List.mem_cons_of_mem _ hs)
      rwa [htab]

/-- For an accepted table: the requests are all performed exactly when the machine starts in a
state of the table and every target is a state whose initial substates end in it. -/
theorem created_performs_iff (initState : UInt8) (table : Table) (targets : List UInt8) (sm : Sm)
    (h : create initState table = .done (some sm)) :
    AllPerformed sm targets ↔
      (targets ≠ [] → initState.toNat < table.length) ∧ ∀ state ∈ targets,Enters table state := by
  obtain ⟨rfl,hi⟩ := idle_of_create h
  exact allPerformed_iff hi targets

/-- A superstate and the substate it starts in. -/
def twoLevel : Table := [⟨0,stateNone,1,true,true,true⟩,⟨1,0,stateNone,false,true,true⟩]

theorem create_twoLevel : create 0 twoLevel = .done (some ⟨0,twoLevel,false⟩) := by
  simp [create,validateAll,validateStateInfo,validateLoop,Outcome.bind,twoLevel,Table.at,
    maxStates,stateNone]

theorem descent_twoLevel : Descent twoLevel 0 [(0,⟨0,stateNone,1,true,true,true⟩),
    (1,⟨1,0,stateNone,false,true,true⟩)] :=
  .cons (by decide) rfl (.cons (by decide) rfl .stop)

theorem created_performs_twoLevel : AllPerformed ⟨0,twoLevel,false⟩ [0] :=
  (created_performs_iff 0 twoLevel [0] _ create_twoLevel).mpr
    ⟨fun _ => by decide,fun _ hs => (List.mem_singleton.mp hs) ▸
      ⟨by decide,_,descent_twoLevel⟩⟩

/-- State 7 is refused with the flag left set, and then the valid request for state 1 is
refused as well. -/
theorem not_created_performs_twoLevel : create 0 twoLevel = .done (some ⟨0,twoLevel,false⟩) ∧
    ¬AllPerformed ⟨0,twoLevel,false⟩ [7,1] ∧ ∀ fuel,
      transitionTo fuel ⟨0,twoLevel,false⟩ 7 = .done (⟨0,twoLevel,true⟩,[]) ∧
      transitionTo fuel ⟨0,twoLevel,true⟩ 1 = .done (⟨0,twoLevel,true⟩,[]) := by
  refine ⟨create_twoLevel,?_,fun fuel => ⟨?_,rfl⟩⟩
  · rintro ⟨fuel,sm',calls,hh,hp,-⟩
    have hv : ¬Valid twoLevel 7 := by decide
    have hd := (@transitionTo_invalid ⟨0,twoLevel,false⟩ 7 rfl hv fuel).symm.trans hh
    have hflag := congrArg (fun q => q.1.inStateTransition) (Outcome.done.inj hd)
    simp only [(hp.2 hv).2] at hflag
    cases hflag
  · exact transitionTo_invalid rfl (by decide) fuel

end SmEngine
end MarbleModules
