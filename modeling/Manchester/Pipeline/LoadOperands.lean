import Manchester.Loader.Placed
import Manchester.Pipeline.InputModule
import Manchester.Pipeline.StoreUnit

namespace Manchester

/-- What an instruction of two inputs is run on, by the form of its literals: a pair of tokens, a
token that comes alone (the matching unit leaves the second one unset), or nothing. -/
inductive OperandForm (inst : Instruction) : Option ReadyTokenPairType → Prop where
  | tokens (token1 token2 : TokenType)
      (hnone : inst.instructionLiteral=InstructionLiteralType.NONE.bits) :
      OperandForm inst (some ⟨token1,some token2⟩)
  | token (token1 : TokenType) (hone : inst.instructionLiteral=InstructionLiteralType.ONE.bits) :
      OperandForm inst (some ⟨token1,none⟩)
  | literals (htwo : inst.instructionLiteral=InstructionLiteralType.TWO.bits) :
      OperandForm inst none

/-- The operands in the packets that the store makes for the instruction with another opcode. -/
def ordinaryOperands (overrun : TableOverrun) (unset : TokenType) (inst : Instruction)
    (o : OpcodeType) : Option ReadyTokenPairType → List (DataType × DataType)
  | some next =>
    (firePair overrun 0 {inst with opcode := o.bits} next.token1 (next.token2.getD unset)).map
      fun packet => (packet.data1,packet.data2)
  | none =>
    (addReadyInstructions overrun [{inst with opcode := o.bits}]).map
      fun packet => (packet.data1,packet.data2)

/-- What the store does for a LOD with the given words as file name and argument. -/
def loadWith (overrun : TableOverrun) (openFile : List UInt8 → Option (List UInt8))
    (behind : Behind) (store : InstructionStore) (address : Nat) (inst : Instruction)
    (tag : TagType) (name arg : DataType) : Option (InstructionStore × List ExecutionPacket) :=
  loadProgram overrun ⟨⟨0,0,0⟩,openFile,behind⟩ store address inst ⟨0,name,tag⟩ ⟨0,arg,tag⟩

/-- The store loads code with these words, whatever it holds, whatever files there are and whatever
lies behind it. It loads code for pairs alone: of a LOD with two literals `add_ready_instructions`
makes a packet. -/
inductive LoadsWith (overrun : TableOverrun) (unset : TokenType) (inst : Instruction) :
    Option ReadyTokenPairType → DataType → DataType → Prop where
  | pair (next : ReadyTokenPairType) (name arg : DataType)
      (h : ∀ openFile behind store,
        store.instructions[(destinationToAddress next.token1.destination).toNat]?=some inst →
          storePair overrun ⟨unset,openFile,behind⟩ store next=
            loadWith overrun openFile behind store
              (destinationToAddress next.token1.destination).toNat inst next.token1.tag name arg) :
      LoadsWith overrun unset inst (some next) name arg

/-- The operands are those that another opcode would get. -/
def OperandsAgree (overrun : TableOverrun) (unset : TokenType) (inst : Instruction)
    (o : OpcodeType) (given : Option ReadyTokenPairType) : Prop :=
  ∃ name arg,ordinaryOperands overrun unset inst o given=[(name,arg)] ∧
    LoadsWith overrun unset inst given name arg

section Loads

variable (overrun : TableOverrun) (unset : TokenType) {inst : Instruction}

theorem storePair_load {store : InstructionStore} {next : ReadyTokenPairType}
    (openFile : List UInt8 → Option (List UInt8)) (behind : Behind)
    (hload : inst.opcode=OpcodeType.LOD.bits)
    (hinst : store.instructions[(destinationToAddress next.token1.destination).toNat]?=some inst) :
    storePair overrun ⟨unset,openFile,behind⟩ store next=
      loadWith overrun openFile behind store (destinationToAddress next.token1.destination).toNat
        inst next.token1.tag next.token1.data (next.token2.getD unset).data := by
  simp only [storePair,hinst,if_pos hload]
  rfl

/-- A file without instructions that exports the two names of a main function. -/
def entryFile : List UInt8 :=
  magicBytes++[0,0,0,0,0,0,2,0]++[0,0,0,0]++mainArgName++List.replicate 238 0++[0,0,0,0]++
    mainReturnName++List.replicate 228 0

theorem parse_entryFile : parseSephi entryFile=
    some ⟨[],[],[],[⟨0,mainArgName⟩,⟨0,mainReturnName⟩],[]⟩ := by
  decide +kernel

/-- The code that is loaded gets the argument. -/
theorem loadWith_entry {store : InstructionStore} (hroom : store.instructions.length < 2^31)
    (address : Nat) (tag : TagType) (name arg : DataType) :
    ∃ after sent,loadWith overrun (fun _ => some entryFile) .clear store address inst tag name arg=
      some (after,sent) ∧ sent.head?.map ExecutionPacket.data1=some arg := by
  have hfile := loadFile_of_valid .clear store entryFile false _ parse_entryFile hroom
    (by decide) (by simp)
  have hne : ¬(0 : Int)=-1 := by decide
  have hnames : mainArgName ≠ mainReturnName := by decide
  let start : BitVec 32 := BitVec.ofNat 32 store.instructions.length
  let exports := [newExportNode start ⟨0,mainArgName⟩,newExportNode start ⟨0,mainReturnName⟩]
  have harg : findLastExport exports mainArgName=some (newExportNode start ⟨0,mainArgName⟩) := by
    simp [findLastExport,exports,newExportNode,hnames.symm]
  have hreturn : findLastExport exports mainReturnName=
      some (newExportNode start ⟨0,mainReturnName⟩) := by
    simp [findLastExport,exports,newExportNode,hnames]
  have hmain : mainPackets address inst tag arg exports=
      [dupPacket address arg tag (newExportNode start ⟨0,mainArgName⟩).currentDestination,
        dupPacket address (inst.destination1.setWidth 64) tag
          (newExportNode start ⟨0,mainReturnName⟩).currentDestination] := by
    simp only [mainPackets,harg,hreturn]
  obtain ⟨after,hloaded⟩ : ∃ after,
      loadWith overrun (fun _ => some entryFile) .clear store address inst tag name arg=
        some (after,mainPackets address inst tag arg exports++addReadyInstructions overrun []) := by
    simp only [loadWith,loadProgram,hfile,loadedInfo,if_neg hne]
    exact ⟨_,rfl⟩
  refine ⟨after,_,hloaded,?_⟩
  rw [hmain]
  rfl

/-- A LOD loads code with the words of its pair, and with no others. -/
theorem loadsWith_iff (hload : inst.opcode=OpcodeType.LOD.bits) (next : ReadyTokenPairType)
    (arg : DataType) : LoadsWith overrun unset inst (some next) next.token1.data arg ↔
      arg=(next.token2.getD unset).data := by
  constructor
  · intro h
    cases h with
    | pair _ _ _ h =>
      let address := (destinationToAddress next.token1.destination).toNat
      let store : InstructionStore := ⟨List.replicate (address+1) inst,[]⟩
      have hlt : address < 2^28 := by
        show (destinationToAddress next.token1.destination).toNat < 2^28
        rw [destinationToAddress_toNat]
        omega
      have hroom : store.instructions.length < 2^31 := by
        show (List.replicate (address+1) inst).length < 2^31
        rw [List.length_replicate]
        omega
      have hinst : store.instructions[address]?=some inst := by
        show (List.replicate (address+1) inst)[address]?=some inst
        rw [List.getElem?_replicate,if_pos (Nat.lt_succ_self _)]
      have hsame := (storePair_load overrun unset _ _ hload hinst).symm.trans
        (h (fun _ => some entryFile) .clear store hinst)
      obtain ⟨after,sent,hleft,hfirst⟩ := @loadWith_entry overrun inst store hroom address
        next.token1.tag next.token1.data (next.token2.getD unset).data
      obtain ⟨after',sent',hright,hfirst'⟩ := @loadWith_entry overrun inst store hroom address
        next.token1.tag next.token1.data arg
      rw [hleft,hright] at hsame
      obtain ⟨-,rfl⟩ := Prod.mk.inj (Option.some.inj hsame)
      exact Option.some.inj (hfirst'.symm.trans hfirst)
  · rintro rfl
    exact .pair next _ _ fun openFile behind store hinst =>
      storePair_load overrun unset openFile behind hload hinst

theorem ordinaryOperands_tokens {o : OpcodeType} (htwo : numInputs overrun o.bits=2)
    (hnone : inst.instructionLiteral=InstructionLiteralType.NONE.bits) (token1 token2 : TokenType) :
    ordinaryOperands overrun unset inst o (some ⟨token1,some token2⟩)=
      [(token1.data,token2.data)] := by
  simp [ordinaryOperands,firePair,hnone,htwo,makePacket]

theorem ordinaryOperands_token {o : OpcodeType}
    (hone : inst.instructionLiteral=InstructionLiteralType.ONE.bits) (token1 : TokenType) :
    ordinaryOperands overrun unset inst o (some ⟨token1,none⟩)=[(token1.data,inst.literal1)] := by
  have hne : InstructionLiteralType.ONE.bits ≠ InstructionLiteralType.NONE.bits := by decide
  simp [ordinaryOperands,firePair,hone,hne,makePacket]

/-- The operands of a LOD are those that any other opcode of two inputs gets for two tokens; for a
token and a literal only if the unset token holds the literal, and for two literals never. -/
theorem lod_operands_iff (hload : inst.opcode=OpcodeType.LOD.bits) {o : OpcodeType}
    (htwo : numInputs overrun o.bits=2) {given : Option ReadyTokenPairType}
    (hform : OperandForm inst given) :
    OperandsAgree overrun unset inst o given ↔
      inst.instructionLiteral=InstructionLiteralType.NONE.bits ∨
        inst.instructionLiteral=InstructionLiteralType.ONE.bits ∧ unset.data=inst.literal1 := by
  cases hform with
  | tokens token1 token2 hnone =>
    refine iff_of_true ⟨_,_,ordinaryOperands_tokens overrun unset htwo hnone token1 token2,?_⟩
      (.inl hnone)
    exact (loadsWith_iff overrun unset hload ⟨token1,some token2⟩ _).mpr rfl
  | token token1 hone =>
    have hne : ¬inst.instructionLiteral=InstructionLiteralType.NONE.bits := by
      rw [hone]
      decide
    have hordinary := @ordinaryOperands_token overrun unset inst o hone token1
    rw [or_iff_right hne,and_iff_right hone]
    constructor
    · rintro ⟨name,arg,hoperands,hloads⟩
      obtain ⟨rfl,rfl⟩ := Prod.mk.inj (List.cons.inj (hordinary.symm.trans hoperands)).1
      exact ((loadsWith_iff overrun unset hload ⟨token1,none⟩ _).mp hloads).symm
    · intro hunset
      refine ⟨_,_,hordinary,?_⟩
      exact (loadsWith_iff overrun unset hload ⟨token1,none⟩ _).mpr hunset.symm
  | literals htwo =>
    have hnone : InstructionLiteralType.TWO.bits ≠ InstructionLiteralType.NONE.bits := by decide
    have hone : InstructionLiteralType.TWO.bits ≠ InstructionLiteralType.ONE.bits := by decide
    rw [htwo,or_iff_right hnone]
    refine iff_of_false ?_ fun h => hone h.1
    rintro ⟨_,_,_,hloads⟩
    cases hloads

/-- The packet of a LOD with two literals passes the input module, and the function unit answers it
with what its local held. -/
theorem literal_lod_answer (calls : SystemCalls) (env : FunctionEnv) (random : RandomStream)
    (n : Nat) (hload : inst.opcode=OpcodeType.LOD.bits)
    (htwo : inst.instructionLiteral=InstructionLiteralType.TWO.bits) :
    ∃ packet result,addReadyInstructions overrun [inst]=[packet] ∧
      functionUnit env random n (inputPacket calls packet)=some (result,n) ∧
        ∀token∈result.tokens,token.data=env.computationResult := by
  let packet := makePacket 0 inst inst.literal1 inst.literal2 noTag
  have hop : OpcodeType.ofBits packet.opcode=some .LOD := by
    show OpcodeType.ofBits inst.opcode=some .LOD
    rw [hload,OpcodeType.ofBits_bits]
  have hpass : inputPacket calls packet=packet := by
    apply inputPacket_other
    intro o ho
    obtain rfl := Option.some.inj (hop.symm.trans ho)
    rfl
  have hready : addReadyInstructions overrun [inst]=[packet] := by
    simp [addReadyInstructions,readyPacket,htwo,packet]
  refine ⟨packet,pureResult packet (ExecutionResult.withTag
    {env.output with marker := oneOutputMarker} packet.tag) env.computationResult,hready,?_,?_⟩
  · simp only [hpass,functionUnit,hop]
  · intro token htoken
    rw [pureResult_value] at htoken
    obtain rfl | hsecond := List.mem_cons.mp htoken
    · rfl
    · split_ifs at hsecond
      · rw [List.mem_singleton.mp hsecond]
      · cases hsecond

end Loads

/-- A LOD with one literal. -/
private def literalLod : Instruction := ⟨29,32,48,0,5,0,1⟩

theorem lod_operands_set :
    OperandsAgree (fun _ => 0) ⟨0,5,0⟩ literalLod .ADD (some ⟨⟨0,0x61,7⟩,none⟩) :=
  (lod_operands_iff (fun _ => 0) ⟨0,5,0⟩ rfl rfl (.token ⟨0,0x61,7⟩ rfl)).mpr (.inr ⟨rfl,rfl⟩)

/-- An ADD gets the literal 5, and the LOD hands over the 9 that the record happens to hold. -/
theorem lod_operand_unset :
    OperandForm literalLod (some ⟨⟨0,0x61,7⟩,none⟩) ∧
      ordinaryOperands (fun _ => 0) ⟨0,9,0⟩ literalLod .ADD (some ⟨⟨0,0x61,7⟩,none⟩)=[(0x61,5)] ∧
      LoadsWith (fun _ => 0) ⟨0,9,0⟩ literalLod (some ⟨⟨0,0x61,7⟩,none⟩) 0x61 9 ∧
      ¬OperandsAgree (fun _ => 0) ⟨0,9,0⟩ literalLod .ADD (some ⟨⟨0,0x61,7⟩,none⟩) := by
  have hordinary :
      ordinaryOperands (fun _ => 0) ⟨0,9,0⟩ literalLod .ADD (some ⟨⟨0,0x61,7⟩,none⟩)=[(0x61,5)] := by
    decide
  refine ⟨.token _ rfl,hordinary,
    (loadsWith_iff (fun _ => 0) ⟨0,9,0⟩ rfl ⟨⟨0,0x61,7⟩,none⟩ 9).mpr rfl,?_⟩
  rintro ⟨name,arg,hoperands,hloads⟩
  obtain ⟨rfl,rfl⟩ := Prod.mk.inj (List.cons.inj (hordinary.symm.trans hoperands)).1
  exact absurd ((loadsWith_iff (fun _ => 0) ⟨0,9,0⟩ rfl ⟨⟨0,0x61,7⟩,none⟩ 5).mp hloads) (by decide)

end Manchester
