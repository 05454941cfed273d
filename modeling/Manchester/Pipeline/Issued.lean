import Manchester.Pipeline.StoreRun

namespace Manchester

/-- The instruction needs no token. -/
def IsReady (overrun : TableOverrun) (inst : Instruction) : Prop :=
  inst.instructionLiteral=InstructionLiteralType.TWO.bits ∨
    (inst.instructionLiteral=InstructionLiteralType.ONE.bits ∧ numInputs overrun inst.opcode=1)

/-- The packets of `add_ready_instructions`, each with the place in the store of the instruction
it is for, when the given instructions start at `start`. -/
def readyIssued (overrun : TableOverrun) (start : Nat) (instructions : List Instruction) :
    List (Nat × ExecutionPacket) :=
  instructions.zipIdx.filterMap fun p =>
    (readyPacket overrun p.2 p.1).map fun packet => (start+p.2,packet)

namespace StoreRound

/-- The packets of a round that are for an instruction of the store, with its place. The store
handles a LOD itself. -/
def issued (overrun : TableOverrun) (round : StoreRound) : List (Nat × ExecutionPacket) :=
  match round.target with
  | none => []
  | some inst =>
    if inst.opcode=OpcodeType.LOD.bits then
      match loadFile round.env.behind round.before round.file false with
      | some (info,store') =>
        if info.error=-1 then []
        else readyIssued overrun (info.instructions.getD 0) (info.slice store')
      | none => []
    else round.sent.map fun packet => (round.address,packet)

/-- The packets by which the store answers a LOD. -/
def answers (round : StoreRound) : List ExecutionPacket :=
  match round.target with
  | none => []
  | some inst =>
    if inst.opcode=OpcodeType.LOD.bits then
      match loadFile round.env.behind round.before round.file false with
      | some (info,_) =>
        if info.error=-1 then [loadErrorPacket round.address inst round.next.token1.tag]
        else mainPackets round.address inst round.next.token1.tag
          (round.next.token2.getD round.env.unsetToken).data info.exports
      | none => []
    else []

end StoreRound

/-- The packet has the address of the instruction at that place, and its fields. -/
def IssuedFor (instructions : List Instruction) (p : Nat × ExecutionPacket) : Prop :=
  ∃ inst,instructions[p.1]?=some inst ∧ (destinationToAddress p.2.input).toNat=p.1 ∧
    p.2.opcode=inst.opcode ∧ p.2.destination1=inst.destination1 ∧
      p.2.destination2=inst.destination2 ∧ p.2.marker=inst.marker

theorem readyIssued_packets (overrun : TableOverrun) (start : Nat)
    (instructions : List Instruction) :
    (readyIssued overrun start instructions).map Prod.snd=
      addReadyInstructions overrun instructions := by
  rw [readyIssued,addReadyInstructions,List.map_filterMap]
  apply List.filterMap_congr
  intro p _
  cases readyPacket overrun p.2 p.1 <;> rfl

/-- All packets of a legal round: its answers to a LOD, then those for an instruction. -/
theorem StoreRound.Legal.sent_eq {overrun : TableOverrun} {round : StoreRound}
    (h : round.Legal overrun) :
    round.sent=round.answers++(round.issued overrun).map Prod.snd := by
  rw [StoreRound.answers,StoreRound.issued]
  cases h.kind with
  | ignored htarget _ hsent => simp [htarget,hsent]
  | loadFailed inst htarget hload info hfile herror hsent =>
    simp [htarget,hload,hfile,herror,hsent]
  | loaded inst htarget hload info hfile herror hsent =>
    simp [htarget,hload,hfile,herror,hsent,readyIssued_packets]
  | fired inst htarget hload _ hsent =>
    simp only [htarget,if_neg hload,List.nil_append,List.map_map]
    exact (List.map_id _).symm

@[simp] theorem createDestination_address (n : Nat) :
    (destinationToAddress (createDestination (BitVec.ofNat 32 n) 0 0)).toNat=n%2^28 := by
  have hzero : (0 : BitVec 32).toNat=0 := rfl
  rw [destinationToAddress_toNat,createDestination_toNat _ _ _ (by decide) (by decide),hzero,
    BitVec.toNat_ofNat]
  omega

theorem readyPacket_eq (overrun : TableOverrun) (i : Nat) (inst : Instruction)
    (packet : ExecutionPacket) (h : readyPacket overrun i inst=some packet) :
    ∃ data1 data2 tag,packet=makePacket i inst data1 data2 tag := by
  unfold readyPacket at h
  split_ifs at h
  · exact ⟨_,_,_,(Option.some.inj h).symm⟩
  · exact ⟨_,_,_,(Option.some.inj h).symm⟩

theorem readyPacket_isSome_iff (overrun : TableOverrun) (i : Nat) (inst : Instruction) :
    (readyPacket overrun i inst).isSome ↔ IsReady overrun inst := by
  unfold readyPacket IsReady
  split_ifs with h1 h2
  · simp [h1]
  · simp [h2]
  · simp [h1,h2]

/-- The packets of a slice that starts at `start` are right exactly where its ready instructions
have at `start+k` the address k. -/
theorem readyIssued_right_iff (overrun : TableOverrun) (instructions slice : List Instruction)
    (start : Nat) (hslice : ∀ k inst,slice[k]?=some inst → instructions[start+k]?=some inst) :
    (∀p∈readyIssued overrun start slice,IssuedFor instructions p) ↔
      ∀ k inst,slice[k]?=some inst → IsReady overrun inst → start=0 ∧ k < 2^28 := by
  constructor
  · intro h k inst hk hready
    obtain ⟨packet,hpacket⟩ :=
      Option.isSome_iff_exists.mp ((readyPacket_isSome_iff overrun k inst).mpr hready)
    have hmem : (start+k,packet)∈readyIssued overrun start slice := by
      apply List.mem_filterMap.mpr
      exact ⟨(inst,k),List.mem_zipIdx_iff_getElem?.mpr hk,by simp [hpacket]⟩
    obtain ⟨-,-,haddress,-⟩ := h _ hmem
    obtain ⟨data1,data2,tag,rfl⟩ := readyPacket_eq _ _ _ _ hpacket
    rw [makePacket,createDestination_address] at haddress
    have hlt := Nat.mod_lt k (Nat.two_pow_pos 28)
    have hle := Nat.mod_le k (2^28)
    simp only at haddress
    omega
  · intro h p hp
    obtain ⟨⟨inst,k⟩,hzip,hp⟩ := List.mem_filterMap.mp hp
    have hk : slice[k]?=some inst := List.mem_zipIdx_iff_getElem?.mp hzip
    obtain ⟨packet,hpacket,rfl⟩ := Option.map_eq_some_iff.mp hp
    have hready := (readyPacket_isSome_iff overrun k inst).mp (by simp [hpacket])
    obtain ⟨rfl,hlt⟩ := h k inst hk hready
    obtain ⟨data1,data2,tag,rfl⟩ := readyPacket_eq _ _ _ _ hpacket
    refine ⟨inst,hslice k inst hk,?_,rfl,rfl,rfl,rfl⟩
    rw [makePacket,createDestination_address,Nat.mod_eq_of_lt hlt,Nat.zero_add]

theorem StoreRound.address_lt (round : StoreRound) : round.address < 2^28 := by
  rw [StoreRound.address,destinationToAddress_toNat]
  omega

/-- The packet for a pair is right. -/
theorem firePair_right (overrun : TableOverrun) (instructions : List Instruction) (address : Nat)
    (inst : Instruction) (token1 token2 : TokenType) (haddress : address < 2^28)
    (hinst : instructions[address]?=some inst) :
    ∀packet∈firePair overrun address inst token1 token2,
      IssuedFor instructions (address,packet) := by
  have hmake : ∀ data1 data2 tag,
      IssuedFor instructions (address,makePacket address inst data1 data2 tag) := by
    intro data1 data2 tag
    refine ⟨inst,hinst,?_,rfl,rfl,rfl,rfl⟩
    rw [makePacket,createDestination_address,Nat.mod_eq_of_lt haddress]
  intro packet hpacket
  unfold firePair at hpacket
  split_ifs at hpacket
  · rw [List.mem_singleton.mp hpacket]
    exact hmake _ _ _
  · rw [List.mem_singleton.mp hpacket]
    exact hmake _ _ _
  · cases hpacket

/-- A LOD of the round brings in no instruction that is ready at once. -/
def StoreRound.LoadsNoReady (overrun : TableOverrun) (round : StoreRound) : Prop :=
  round.isLoad → ∀ sephi,Loads round.before round.file sephi →
    ∀ k inst,sephi.instructions[k]?=some inst →
      ¬IsReady overrun (placedInstruction round.env.behind round.before sephi false k inst)

/-- The packets of a round for instructions of the store are right, and so is the address in its
answers to a LOD. -/
def StoreRound.Right (overrun : TableOverrun) (round : StoreRound) : Prop :=
  (∀p∈round.issued overrun,IssuedFor round.after.instructions p) ∧
    ∀packet∈round.answers,(destinationToAddress packet.input).toNat=round.address

theorem StoreRound.answers_address (round : StoreRound) :
    ∀packet∈round.answers,(destinationToAddress packet.input).toNat=round.address := by
  have hdup : ∀ data tag destination1,
      (destinationToAddress (dupPacket round.address data tag destination1).input).toNat=
        round.address := by
    intro data tag destination1
    rw [dupPacket,createDestination_address,Nat.mod_eq_of_lt round.address_lt]
  intro packet hpacket
  rw [StoreRound.answers] at hpacket
  split at hpacket
  · cases hpacket
  · split_ifs at hpacket
    · split at hpacket
      · split_ifs at hpacket
        · rw [List.mem_singleton.mp hpacket,loadErrorPacket,makePacket,createDestination_address,
            Nat.mod_eq_of_lt round.address_lt]
        · unfold mainPackets at hpacket
          split at hpacket
          · simp only [List.mem_cons,List.not_mem_nil,or_false] at hpacket
            obtain rfl | rfl := hpacket <;> exact hdup _ _ _
          · cases hpacket
      · cases hpacket
    · cases hpacket

/-- One round: it goes wrong only for a LOD that brings in an instruction that is ready. -/
theorem StoreRound.Legal.right_iff {overrun : TableOverrun} {round : StoreRound}
    (hlegal : round.Legal overrun) : round.Right overrun ↔ round.LoadsNoReady overrun := by
  rw [StoreRound.Right,and_iff_left round.answers_address]
  have hnoload : ∀ inst,round.target=some inst → inst.opcode ≠ OpcodeType.LOD.bits →
      ¬round.isLoad := by
    intro inst htarget hload ⟨inst',htarget',hload'⟩
    obtain rfl := Option.some.inj (htarget.symm.trans htarget')
    exact hload hload'
  cases hlegal.kind with
  | ignored htarget =>
    constructor
    · intro _ ⟨inst,htarget',_⟩
      rw [htarget] at htarget'
      cases htarget'
    · intro _
      simp [StoreRound.issued,htarget]
  | loadFailed inst htarget hload info hfile herror =>
    constructor
    · intro _ _ sephi hloads
      have hzero := loads_error _ _ _ _ _ _ sephi hfile hloads
      rw [hzero] at herror
      exact absurd herror (by decide)
    · intro _
      simp [StoreRound.issued,htarget,hload,hfile,herror]
  | loaded inst htarget hload info hfile herror =>
    obtain ⟨sephi,hloads,hstart,hslice⟩ := loadFile_slice _ _ _ _ _ _ hfile herror
    have hplaces := loadFile_admitted _ _ _ _ _ _ sephi hfile hloads.1
    have hissued : round.issued overrun=
        readyIssued overrun round.before.instructions.length (info.slice round.after) := by
      simp [StoreRound.issued,htarget,hload,hfile,herror,hstart]
    have hpos : 0 < round.before.instructions.length :=
      Nat.lt_of_le_of_lt (Nat.zero_le _) (List.getElem?_eq_some_iff.mp htarget).1
    rw [hissued,readyIssued_right_iff]
    · rw [hslice]
      constructor
      · intro h _ sephi' hloads' k inst' hk hready
        obtain rfl := hloads.1.unique hloads'.1
        have hzero := (h k _ (by rw [List.getElem?_mapIdx,hk,Option.map_some]) hready).1
        omega
      · intro h k inst' hk hready
        rw [List.getElem?_mapIdx] at hk
        obtain ⟨inst'',hinst'',rfl⟩ := Option.map_eq_some_iff.mp hk
        exact absurd hready (h ⟨inst,htarget,hload⟩ sephi hloads k inst'' hinst'')
    · intro k inst' hk
      rw [hslice] at hk
      rw [hplaces,List.getElem?_append_right (Nat.le_add_right _ _),Nat.add_sub_cancel_left]
      exact hk
  | fired inst htarget hload hafter hsent =>
    constructor
    · exact fun _ hisload => absurd hisload (hnoload inst htarget hload)
    · intro _ p hp
      simp only [StoreRound.issued,htarget,if_neg hload] at hp
      obtain ⟨packet,hpacket,rfl⟩ := List.mem_map.mp hp
      rw [hsent] at hpacket
      rw [hafter]
      exact firePair_right _ _ _ _ _ _ round.address_lt htarget packet hpacket

/-- In every run, whatever OS it starts with, all packets are right exactly when the ready
instructions of the OS have addresses of 28 bits and no LOD brings in an instruction that is
ready. -/
theorem issued_addresses_iff (overrun : TableOverrun) (image : InstructionStore)
    (rounds : List StoreRound) (hrun : StoreRuns overrun image rounds) :
    ((∀p∈readyIssued overrun 0 image.instructions,IssuedFor image.instructions p) ∧
        ∀round∈rounds,round.Right overrun) ↔
      (∀ k inst,image.instructions[k]?=some inst → IsReady overrun inst → k < 2^28) ∧
        ∀round∈rounds,round.LoadsNoReady overrun := by
  have himage := readyIssued_right_iff overrun image.instructions image.instructions 0
    fun k inst hk => by rw [Nat.zero_add]; exact hk
  rw [himage]
  simp only [true_and]
  refine and_congr_right fun _ => forall₂_congr fun round hround => ?_
  exact (hrun.all_legal round hround).right_iff

theorem issued_addresses_dup :
    (∀p∈readyIssued (fun _ => 0) 0 (opcodeStore 5).instructions,
        IssuedFor (opcodeStore 5).instructions p) ∧
      ∀round∈[opcodeRound],round.Right fun _ => 0 := by
  refine (issued_addresses_iff (fun _ => 0) (opcodeStore 5) [opcodeRound]
    (.cons opcodeRound [] opcodeRound_legal (.nil _))).mpr ⟨?_,?_⟩
  · intro k inst hk _
    have hlt := (List.getElem?_eq_some_iff.mp hk).1
    have hone : (opcodeStore 5).instructions.length=1 := rfl
    omega
  · intro round hround ⟨inst,htarget,hop⟩
    obtain rfl := List.mem_singleton.mp hround
    obtain rfl := Option.some.inj (htarget : some ⟨5,0,0,0,0,0,1⟩=some inst)
    exact absurd hop (by decide)

/-- A LOD at address 0, and a file of one DUP with a literal. -/
private def lodRound : StoreRound :=
  ⟨opcodeStore 29,⟨⟨0,0,0⟩,fun _ => some (opcodeFile 5 0),.clear⟩,⟨⟨0,0x61,7⟩,some ⟨8,1,7⟩⟩,
    ⟨(opcodeStore 29).instructions++[⟨5,16,16,0,0,0,1⟩],[]⟩,[⟨0,0,5,0,16,16,0,0⟩]⟩

/-- The DUP is at address 1 of the store, and its packet says 0. -/
theorem issued_address_of_loaded :
    Boots (some (opcodeFile 29 0)) (opcodeStore 29) ∧
      StoreRuns (fun _ => 0) (opcodeStore 29) [lodRound] ∧
      (1,⟨0,0,5,0,16,16,0,0⟩)∈lodRound.issued (fun _ => 0) ∧
      ¬IssuedFor lodRound.after.instructions (1,⟨0,0,5,0,16,16,0,0⟩) := by
  refine ⟨⟨.clear,⟨some 0,1,[],0⟩,by decide +kernel,by decide⟩,
    .cons lodRound [] (show storePair _ _ _ _=_ by decide +kernel) (.nil _),by decide +kernel,?_⟩
  intro ⟨_,_,haddress,_⟩
  exact absurd haddress (by decide)

end Manchester
