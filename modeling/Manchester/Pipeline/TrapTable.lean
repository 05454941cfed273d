import Manchester.Table.Map
import Manchester.Pipeline.Trap
import Mathlib.Data.BitVec

namespace Manchester

/-- `kh_int64_hash_func` -/
def khInt64HashFunc (key : BitVec 64) : BitVec 32 :=
  ((key >>> 33)^^^key^^^(key <<< 11)).setWidth 32

instance : Inhabited TokenType := ⟨⟨0,0,0⟩⟩

structure UnitState where
  hashTable : Khash (BitVec 64) TokenType
  calls : Nat
  exited : Bool

namespace UnitState

def start : UnitState := ⟨khInit,0,false⟩

def singleStepToken (random : RandomStream) (input : DestinationType) (token : TokenType)
    (u : UnitState) : Option (UnitState × List TokenType) :=
  let newTag : TagType := (newTagArea (random u.calls)).setWidth 64
  let randomDest : DestinationType := (random (u.calls+1)).setWidth 32
  (khPut khInt64HashFunc u.hashTable (randomDest.setWidth 64)).map fun r =>
    ({u with hashTable := khSetValue r.1 r.2.1 token,calls := u.calls+2},
      [⟨createDestination 0 inputOne matchingOne,(khInt64HashFunc (input.setWidth 64)).setWidth 64,
          newTag⟩,
        ⟨createDestination 1 inputOne matchingOne,
          (khInt64HashFunc (token.destination.setWidth 64)).setWidth 64,newTag⟩,
        ⟨createDestination 2 inputOne matchingOne,randomDest.setWidth 64,newTag⟩])

def singleStepTokens (random : RandomStream) (input : DestinationType) :
    List TokenType → UnitState → Option (UnitState × List TokenType)
  | [],u => some (u,[])
  | token::tokens,u =>
    (singleStepToken random input token u).bind fun r =>
      (singleStepTokens random input tokens r.1).map fun s => (s.1,r.2++s.2)

def sendTokens (trapFlag : Bool) (random : RandomStream) (next : ExecutionPacket)
    (tokens : List TokenType) (u : UnitState) : Option (UnitState × List TokenType) :=
  if trapFlag && !isTrapCode next.input then singleStepTokens random next.input tokens u
  else some (u,tokens)

def finishPacket (trapFlag : Bool) (random : RandomStream) (next : ExecutionPacket)
    (output1 : TokenType) (tokens : List TokenType) (u : UnitState) :
    Option (UnitState × List TokenType) :=
  if trapFlag && next.opcode==OpcodeType.RTD.bits then
    (khGet khInt64HashFunc u.hashTable (output1.destination.setWidth 64)).bind fun k =>
      if k ≠ u.hashTable.nBuckets then
        some ({u with hashTable := khDel u.hashTable k},
          if output1.data=1 then [u.hashTable.vals k] else [])
      else sendTokens trapFlag random next tokens u
  else sendTokens trapFlag random next tokens u

/-- A round of the loop of `run_processing_unit`. -/
def processPacket (trapFlag : Bool) (random : RandomStream) (env : FunctionEnv) (u : UnitState)
    (next : ExecutionPacket) : Option (UnitState × List TokenType) :=
  if u.exited then none
  else match functionUnit env random u.calls next with
    | none => some ({u with exited := true},[])
    | some (result,calls) =>
      finishPacket trapFlag random next result.output1 result.tokens {u with calls := calls}

end UnitState

/-- The map with its keys as wide as those of the table. -/
def TrapWaiting.widen (waiting : TrapWaiting) (key : BitVec 64) : Option TokenType :=
  if (key.setWidth 32).setWidth 64=key then waiting (key.setWidth 32) else none

theorem setWidth_back (d : DestinationType) : (d.setWidth 64).setWidth 32=d := by
  rw [BitVec.setWidth_setWidth_of_le d (by decide),BitVec.setWidth_eq]

section Widen

variable {waiting : TrapWaiting} {d : DestinationType}

@[simp] theorem TrapWaiting.widen_setWidth : waiting.widen (d.setWidth 64)=waiting d := by
  rw [widen,setWidth_back,if_pos rfl]

theorem TrapWaiting.widen_update {value : Option TokenType} :
    TrapWaiting.widen (Function.update waiting d value)=
      Function.update waiting.widen (d.setWidth 64) value := by
  funext key
  by_cases hkey : key=d.setWidth 64
  · subst hkey
    rw [widen_setWidth,Function.update_self,Function.update_self]
  · rw [Function.update_of_ne hkey,widen,widen]
    by_cases hnarrow : (key.setWidth 32).setWidth 64=key
    · have hne : key.setWidth 32 ≠ d := fun heq => hkey (by rw [← hnarrow,heq])
      rw [if_pos hnarrow,if_pos hnarrow,Function.update_of_ne hne]
    · rw [if_neg hnarrow,if_neg hnarrow]

end Widen

instance : Finite DestinationType := Finite.of_equiv _ BitVec.equivFin.toEquiv.symm

/-- The number of tokens that wait. -/
noncomputable def ProcessingState.waitingCount (s : ProcessingState) : Nat :=
  {d | s.trapWaiting d ≠ none}.ncard

theorem TrapWaiting.ncard_widen (waiting : TrapWaiting) :
    {key | waiting.widen key ≠ none}.ncard={d | waiting d ≠ none}.ncard := by
  have himage : {key | waiting.widen key ≠ none}=
      (fun d : DestinationType => d.setWidth 64) '' {d | waiting d ≠ none} := by
    ext key
    simp only [Set.mem_ofPred_eq,Set.mem_image]
    constructor
    · intro hkey
      have hnarrow : (key.setWidth 32).setWidth 64=key := by
        by_contra hwide
        exact hkey (by rw [widen,if_neg hwide])
      rw [widen,if_pos hnarrow] at hkey
      exact ⟨key.setWidth 32,hkey,hnarrow⟩
    · rintro ⟨d,hd,rfl⟩
      rwa [widen_setWidth]
  rw [himage]
  apply Set.ncard_image_of_injective
  intro a b hab
  rw [← setWidth_back a,← setWidth_back b]
  exact congrArg (BitVec.setWidth 32) hab

theorem waiting_update_le (s : ProcessingState) (d : DestinationType) (token : TokenType)
    (calls : Nat) :
    ({s with trapWaiting := Function.update s.trapWaiting d (some token),
             calls := calls} : ProcessingState).waitingCount ≤ s.waitingCount+1 := by
  have hsub : {k | Function.update s.trapWaiting d (some token) k ≠ none} ⊆
      insert d {k | s.trapWaiting k ≠ none} := by
    intro k hk
    by_cases heq : k=d
    · exact Or.inl heq
    · right
      rwa [Set.mem_ofPred_eq,Function.update_of_ne heq] at hk
  exact (Set.ncard_le_ncard hsub (Set.toFinite _)).trans (Set.ncard_insert_le d _)

theorem waiting_delete_le (s : ProcessingState) (d : DestinationType) :
    ({s with trapWaiting := Function.update s.trapWaiting d none} : ProcessingState).waitingCount ≤
      s.waitingCount := by
  have hsub : {k | Function.update s.trapWaiting d none k ≠ none} ⊆
      {k | s.trapWaiting k ≠ none} := by
    intro k hk
    by_cases heq : k=d
    · exact absurd (by rw [heq,Function.update_self]) hk
    · rwa [Set.mem_ofPred_eq,Function.update_of_ne heq] at hk
  exact Set.ncard_le_ncard hsub (Set.toFinite _)

/-- The table of the unit holds what waits. -/
structure UnitState.Keeps (u : UnitState) (s : ProcessingState) : Prop where
  valid : u.hashTable.Valid khInt64HashFunc
  waiting : u.hashTable.Represents s.trapWaiting.widen
  calls : u.calls=s.calls
  exited : u.exited=s.exited

theorem start_keeps : UnitState.start.Keeps ProcessingState.empty := by
  refine ⟨khInit_valid,?_,rfl,rfl⟩
  have hempty : TrapWaiting.widen ProcessingState.empty.trapWaiting=fun _ => none := by
    funext key
    rw [TrapWaiting.widen,ProcessingState.empty,ite_self]
  rw [hempty]
  exact khInit_represents

section Rounds

variable {random : RandomStream} {trapFlag : Bool} {u : UnitState} {s : ProcessingState}
  {input : DestinationType} {next : ExecutionPacket}

theorem UnitState.Keeps.size (h : u.Keeps s) : u.hashTable.size=s.waitingCount := by
  rw [← h.valid.ncard_keys h.waiting,TrapWaiting.ncard_widen]
  rfl

theorem singleStepToken_keeps (random : RandomStream) (input : DestinationType) (h : u.Keeps s)
    (hcount : s.waitingCount < 2^30) (token : TokenType) :
    ∃ u',u.singleStepToken random input token=
        some (u',(singleStepToken random input token s).2) ∧
      u'.Keeps (singleStepToken random input token s).1 := by
  obtain ⟨table,x,ret,hput,hvalid,hmap⟩ := khPut_spec h.valid h.waiting (h.size ▸ hcount)
    ((returnLocation random s.calls).setWidth 64) token
  rw [← TrapWaiting.widen_update] at hmap
  refine ⟨⟨khSetValue table x token,s.calls+2,s.exited⟩,?_,hvalid,hmap,rfl,rfl⟩
  rw [UnitState.singleStepToken,h.calls]
  have hput' : khPut khInt64HashFunc u.hashTable
      (((random (s.calls+1)).setWidth 32 : DestinationType).setWidth 64)=some (table,x,ret) := hput
  simp only [hput',Option.map_some]
  rw [h.exited]
  rfl

/-- Each token that is asked about gets one more bucket at most. -/
theorem singleStepTokens_keeps (tokens : List TokenType) :
    ∀ {u : UnitState} {s : ProcessingState},u.Keeps s → s.waitingCount+tokens.length ≤ 2^30 →
      ∃ u',u.singleStepTokens random input tokens=
          some (u',(singleStepTokens random input tokens s).2) ∧
        u'.Keeps (singleStepTokens random input tokens s).1 := by
  induction tokens with
  | nil => exact fun h _ => ⟨_,rfl,h⟩
  | cons token tokens ih =>
    intro u s h hcount
    rw [List.length_cons] at hcount
    obtain ⟨u1,hfirst,h1⟩ := singleStepToken_keeps random input h (by omega) token
    have hmore : (singleStepToken random input token s).1.waitingCount ≤ s.waitingCount+1 :=
      waiting_update_le s _ token _
    obtain ⟨u2,hrest,h2⟩ := ih h1 (by omega)
    refine ⟨u2,?_,h2⟩
    rw [UnitState.singleStepTokens,hfirst,Option.bind_some,hrest]
    rfl

theorem sendTokens_keeps (h : u.Keeps s) (tokens : List TokenType)
    (hcount : s.waitingCount+tokens.length ≤ 2^30) :
    ∃ u',u.sendTokens trapFlag random next tokens=
        some (u',(sendTokens trapFlag random next tokens s).2) ∧
      u'.Keeps (sendTokens trapFlag random next tokens s).1 := by
  unfold UnitState.sendTokens sendTokens
  by_cases htrap : (trapFlag && !isTrapCode next.input)=true
  · simp only [if_pos htrap]
    exact singleStepTokens_keeps tokens h hcount
  · simp only [if_neg htrap]
    exact ⟨u,rfl,h⟩

theorem finishPacket_keeps (trapFlag : Bool) (random : RandomStream) (next : ExecutionPacket)
    (h : u.Keeps s) (output1 : TokenType) (tokens : List TokenType)
    (hcount : s.waitingCount+tokens.length ≤ 2^30) :
    ∃ u',u.finishPacket trapFlag random next output1 tokens=
        some (u',(finishPacket trapFlag random next output1 tokens s).2) ∧
      u'.Keeps (finishPacket trapFlag random next output1 tokens s).1 := by
  unfold UnitState.finishPacket finishPacket
  by_cases hanswer : (trapFlag && next.opcode==OpcodeType.RTD.bits)=true
  · simp only [if_pos hanswer]
    obtain ⟨x,hget,hx⟩ := khGet_spec h.valid h.waiting (output1.destination.setWidth 64)
    rw [TrapWaiting.widen_setWidth] at hx
    rw [hget,Option.bind_some]
    cases hwaits : s.trapWaiting output1.destination with
    | none =>
      rw [hwaits] at hx
      rw [if_neg (not_not.mpr hx)]
      exact sendTokens_keeps h tokens hcount
    | some token =>
      rw [hwaits] at hx
      obtain ⟨hlt,hlive,hkey,hval⟩ := hx
      have hmap := h.waiting.delete h.valid hlt hlive
      rw [hkey,← TrapWaiting.widen_update] at hmap
      rw [if_pos (Nat.ne_of_lt hlt),hval]
      exact ⟨_,rfl,h.valid.delete hlt hlive,hmap,h.calls,h.exited⟩
  · simp only [if_neg hanswer]
    exact sendTokens_keeps h tokens hcount

theorem tokens_length_le (result : ExecutionResult) : result.tokens.length ≤ 2 := by
  unfold ExecutionResult.tokens
  split
  · exact le_rfl
  · exact Nat.le_succ 1

theorem singleStepTokens_waiting_le (tokens : List TokenType) :
    ∀ s : ProcessingState,(singleStepTokens random input tokens s).1.waitingCount ≤
      s.waitingCount+tokens.length := by
  induction tokens with
  | nil => exact fun s => le_rfl
  | cons token tokens ih =>
    intro s
    have hfirst : (singleStepToken random input token s).1.waitingCount ≤ s.waitingCount+1 :=
      waiting_update_le s _ token _
    have hrest := ih (singleStepToken random input token s).1
    rw [List.length_cons]
    exact hrest.trans (by omega)

theorem sendTokens_waiting_le (s : ProcessingState) (tokens : List TokenType) :
    (sendTokens trapFlag random next tokens s).1.waitingCount ≤ s.waitingCount+tokens.length := by
  unfold sendTokens
  split
  · exact singleStepTokens_waiting_le tokens s
  · exact Nat.le_add_right ..

theorem finishPacket_waiting_le (trapFlag : Bool) (random : RandomStream) (next : ExecutionPacket)
    (s : ProcessingState) (output1 : TokenType) (tokens : List TokenType) :
    (finishPacket trapFlag random next output1 tokens s).1.waitingCount ≤
      s.waitingCount+tokens.length := by
  unfold finishPacket
  split
  · split
    · exact (waiting_delete_le s output1.destination).trans (Nat.le_add_right ..)
    · exact sendTokens_waiting_le s tokens
  · exact sendTokens_waiting_le s tokens

theorem processPacket_waiting_le {env : FunctionEnv} {s' : ProcessingState}
    {sent : List TokenType}
    (hround : processPacket trapFlag random env s next=some (s',sent)) :
    s'.waitingCount ≤ s.waitingCount+2 := by
  unfold processPacket at hround
  split at hround
  · cases hround
  · split at hround
    · obtain ⟨rfl,-⟩ := Prod.mk.inj (Option.some.inj hround)
      exact Nat.le_add_right ..
    · rename_i result calls _
      have hle := finishPacket_waiting_le trapFlag random next {s with calls := calls}
        result.output1 result.tokens
      rw [Option.some.inj hround] at hle
      exact hle.trans (Nat.add_le_add_left (tokens_length_le result) _)

/-- A round with the table sends what a round with the map does. -/
theorem processPacket_keeps (trapFlag : Bool) (random : RandomStream) (next : ExecutionPacket)
    (h : u.Keeps s) (hcount : s.waitingCount+2 ≤ 2^30) (env : FunctionEnv) :
    (u.processPacket trapFlag random env next=none ∧
        processPacket trapFlag random env s next=none) ∨
      ∃ u' s' sent,u.processPacket trapFlag random env next=some (u',sent) ∧
        processPacket trapFlag random env s next=some (s',sent) ∧ u'.Keeps s' := by
  unfold UnitState.processPacket processPacket
  rw [h.exited,h.calls]
  by_cases hexited : s.exited=true
  · exact Or.inl ⟨if_pos hexited,if_pos hexited⟩
  · right
    rw [if_neg hexited,if_neg hexited]
    cases hunit : functionUnit env random s.calls next with
    | none => exact ⟨_,_,_,rfl,rfl,h.valid,h.waiting,rfl,rfl⟩
    | some r =>
      obtain ⟨result,calls⟩ := r
      have hcalls : (⟨u.hashTable,calls,s.exited⟩ : UnitState).Keeps {s with calls := calls} :=
        ⟨h.valid,h.waiting,rfl,rfl⟩
      have hlength := tokens_length_le result
      obtain ⟨u',hfinish,h'⟩ := finishPacket_keeps trapFlag random next hcalls
        result.output1 result.tokens (Nat.le_trans (Nat.add_le_add_left hlength _) hcount)
      exact ⟨u',_,_,hfinish,rfl,h'⟩

end Rounds

section Runs

variable {σ : Type}

/-- The packets one after the other, each with what its round finds in uninitialised memory, and
what each round sends. There is no run past the exit. -/
def processPackets (step : FunctionEnv → σ → ExecutionPacket → Option (σ × List TokenType)) :
    σ → List (FunctionEnv × ExecutionPacket) → Option (σ × List (List TokenType))
  | s,[] => some (s,[])
  | s,(env,next)::packets =>
    (step env s next).bind fun r => (processPackets step r.1 packets).map fun t => (t.1,r.2::t.2)

/-- A round leaves two more tokens waiting at most. -/
theorem processPackets_waiting_le (trapFlag : Bool) (random : RandomStream)
    (packets : List (FunctionEnv × ExecutionPacket)) :
    ∀ {s s' : ProcessingState} {sent : List (List TokenType)},
      processPackets (processPacket trapFlag random) s packets=some (s',sent) →
        s'.waitingCount ≤ s.waitingCount+2*packets.length := by
  induction packets with
  | nil =>
    intro s s' sent hrun
    obtain ⟨rfl,-⟩ := Prod.mk.inj (Option.some.inj hrun)
    exact Nat.le_add_right ..
  | cons packet packets ih =>
    intro s s' sent hrun
    obtain ⟨env,next⟩ := packet
    rw [processPackets] at hrun
    obtain ⟨⟨s1,sent1⟩,hround,hrun⟩ := Option.bind_eq_some_iff.mp hrun
    obtain ⟨⟨s2,sent2⟩,hrest,hsame⟩ := Option.map_eq_some_iff.mp hrun
    obtain ⟨rfl,-⟩ := Prod.mk.inj hsame
    have hstep := processPacket_waiting_le hround
    have hlater : s2.waitingCount ≤ s1.waitingCount+2*packets.length := ih hrest
    change s2.waitingCount ≤ _
    rw [List.length_cons]
    omega

theorem processPackets_keeps (trapFlag : Bool) (random : RandomStream)
    (packets : List (FunctionEnv × ExecutionPacket)) :
    ∀ {u : UnitState} {s : ProcessingState},u.Keeps s →
      (∀ before,before <+: packets → ∀ s' sent,
        processPackets (processPacket trapFlag random) s before=some (s',sent) →
          s'.waitingCount+2 ≤ 2^30) →
      (processPackets (fun env u => u.processPacket trapFlag random env) u packets).map Prod.snd=
        (processPackets (processPacket trapFlag random) s packets).map Prod.snd := by
  induction packets with
  | nil => exact fun _ _ => rfl
  | cons packet packets ih =>
    intro u s h hcount
    obtain ⟨env,next⟩ := packet
    have hnow := hcount [] List.nil_prefix s [] rfl
    obtain ⟨hu,hs⟩ | ⟨u',s',sent,hu,hs,h'⟩ := processPacket_keeps trapFlag random next h
      hnow env
    · rw [processPackets,processPackets,hu,hs]
      rfl
    · have hrest := ih h' fun before hbefore s'' sent' hrun =>
        hcount ((env,next)::before) (List.cons_prefix_cons.mpr ⟨rfl,hbefore⟩) s'' (sent::sent')
          (by rw [processPackets,hs,Option.bind_some,hrun]; rfl)
      rw [processPackets,processPackets,hu,hs,Option.bind_some,Option.bind_some,Option.map_map,
        Option.map_map]
      have hcons := congrArg (Option.map fun later => sent::later) hrest
      rw [Option.map_map,Option.map_map] at hcons
      exact hcons

end Runs

/-- The processing unit with its hash table sends, over every run of packets, exactly the tokens
that the unit with a map of the waiting tokens does, as long as fewer than 2^30-1 tokens wait at a
time: no answer of the trap code meets another token's bucket, and none is lost to a deletion or
to the table's growing. -/
theorem trap_table_refines (trapFlag : Bool) (random : RandomStream)
    (packets : List (FunctionEnv × ExecutionPacket))
    (hcount : ∀ before,before <+: packets → ∀ s sent,
      processPackets (processPacket trapFlag random) ProcessingState.empty before=some (s,sent) →
        s.waitingCount+2 ≤ 2^30) :
    (processPackets (fun env u => UnitState.processPacket trapFlag random env u) UnitState.start
        packets).map Prod.snd=
      (processPackets (processPacket trapFlag random) ProcessingState.empty packets).map
        Prod.snd :=
  processPackets_keeps trapFlag random packets start_keeps hcount

/-- A DUP of user code at address 200, and the answer of the trap code that lets its token go. -/
theorem trap_table_refines_answered :
    (processPackets (fun env u => UnitState.processPacket true (fun _ => 5) env u) UnitState.start
      [((dupRound 200).env,(dupRound 200).next),
        ((dupRound 200).env,⟨1,5,OpcodeType.RTD.bits,0,0,0,createDestination 40 0 0,0⟩)]).map
          Prod.snd=
      some [handlerTokens (dupRound 200).next.input ⟨outputdDestination,7,0⟩ 5 5,
        [⟨outputdDestination,7,0⟩]] := by
  refine (trap_table_refines true (fun _ => 5) _ ?_).trans rfl
  intro before hbefore s sent hrun
  have hle := processPackets_waiting_le true (fun _ => 5) before hrun
  have hzero : ProcessingState.empty.waitingCount=0 := by
    simp [ProcessingState.waitingCount,ProcessingState.empty]
  have hlength : before.length ≤ 2 := hbefore.length_le
  omega

end Manchester
