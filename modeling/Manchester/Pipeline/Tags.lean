import Manchester.Pipeline.FunctionUnit

namespace Manchester

/-- An ITG or SIL keeps its data and gives all its tokens one tag. -/
theorem pureResult_withTag (packet : ExecutionPacket) (output : ExecutionResult) (tag : TagType)
    (value : DataType) :
    ∀token∈(pureResult packet (output.withTag tag) value).tokens,token.tag=tag := by
  intro token htoken
  by_cases hboth : packet.marker=bothOutputMarker
  · simp only [pureResult,hboth,if_true,ExecutionResult.withTag,ExecutionResult.tokens,
      List.mem_cons,List.not_mem_nil,or_false] at htoken
    obtain rfl | rfl := htoken <;> rfl
  · simp only [pureResult,hboth,if_false,ExecutionResult.withTag,ExecutionResult.tokens,
      List.mem_cons] at htoken
    obtain rfl | hsecond := htoken
    · rfl
    · split_ifs at hsecond
      · rw [List.mem_singleton.mp hsecond]
      · cases hsecond

/-- One execution of an instruction: a token with tag t brings about one with tag t'. -/
inductive Retags (o : OpcodeType) (data2 : DataType) (t : TagType) : TagType → Prop where
  | fires (env : FunctionEnv) (random : RandomStream) (calls calls' : Nat)
      (packet : ExecutionPacket) (result : ExecutionResult) (token : TokenType)
      (hopcode : packet.opcode=o.bits) (hdata : packet.data2=data2) (htag : packet.tag=t)
      (hunit : functionUnit env random calls packet=some (result,calls'))
      (htoken : token∈result.tokens) : Retags o data2 t token.tag

/-- ITG n times in a row. -/
inductive Iterates : Nat → TagType → TagType → Prop where
  | zero (t : TagType) : Iterates 0 t t
  | succ {n : Nat} {t t' t'' : TagType} (data2 : DataType) (h : Iterates n t t')
      (hitg : Retags .ITG data2 t' t'') : Iterates (n+1) t t''

theorem Retags.itg {data2 : DataType} {t t' : TagType} (h : Retags .ITG data2 t t') : t'=t+1 := by
  cases h with
  | fires env random calls calls' packet result token hopcode _ htag hunit htoken =>
    simp only [functionUnit,hopcode,OpcodeType.ofBits_bits,Option.some.injEq,Prod.mk.injEq] at hunit
    obtain ⟨rfl,-⟩ := hunit
    rw [← htag]
    exact pureResult_withTag _ _ _ _ token htoken

theorem Retags.sil {data2 : DataType} {t t' : TagType} (h : Retags .SIL data2 t t') :
    t'=createTag (tagToTagArea t) (data2.setWidth 32) := by
  cases h with
  | fires env random calls calls' packet result token hopcode hdata htag hunit htoken =>
    simp only [functionUnit,hopcode,OpcodeType.ofBits_bits,Option.some.injEq,Prod.mk.injEq] at hunit
    obtain ⟨rfl,-⟩ := hunit
    rw [← htag,← hdata]
    exact pureResult_withTag _ _ _ _ token htoken

theorem Iterates.eq {n : Nat} {t t' : TagType} (h : Iterates n t t') :
    t'=t+BitVec.ofNat 64 n := by
  induction h with
  | zero => exact (BitVec.add_zero _).symm
  | succ data2 _ hitg ih =>
    rw [hitg.itg,ih,BitVec.add_assoc]
    congr 1
    apply BitVec.eq_of_toNat_eq
    simp

/-- The area survives n additions exactly while the count does not leave its 32 bits, or has gone
round all 64. -/
theorem tagToTagArea_add_iff (t : TagType) (n : Nat) :
    tagToTagArea (t+BitVec.ofNat 64 n)=tagToTagArea t ↔
      ((tagToIterationCount t).toNat+n)%2^64 < 2^32 := by
  have harea : ∀ s : TagType,(tagToTagArea s).toNat=s.toNat/2^32 := by
    intro s
    have hlt := s.isLt
    rw [tagToTagArea,BitVec.toNat_setWidth,BitVec.toNat_ushiftRight,Nat.shiftRight_eq_div_pow]
    omega
  have hcount : (tagToIterationCount t).toNat=t.toNat%2^32 := by
    have hmask : (0xffffffff#64).toNat=2^32-1 := rfl
    rw [tagToIterationCount,BitVec.toNat_setWidth,BitVec.toNat_and,hmask,Nat.and_comm,
      Nat.and_two_pow_sub_one_eq_mod,Nat.mod_mod]
  have hlt := t.isLt
  rw [← BitVec.toNat_inj,harea,harea,hcount,BitVec.toNat_add,BitVec.toNat_ofNat]
  omega

/-- A value that leaves a loop after n rounds has the tag of its partners exactly when its count
has stayed in its field. -/
theorem iteration_tags_iff (t t' t'' : TagType) (n : Nat) (hitg : Iterates n t t')
    (hsil : Retags .SIL 0 t' t'') :
    tagToTagArea t'=tagToTagArea t ∧ t''=createTag (tagToTagArea t) 0 ↔
      ((tagToIterationCount t).toNat+n)%2^64 < 2^32 := by
  have hzero : (0 : DataType).setWidth 32=0 := rfl
  rw [hsil.sil,hzero,hitg.eq,← tagToTagArea_add_iff]
  constructor
  · exact fun h => h.1
  · exact fun h => ⟨h,by rw [h]⟩

/-- A packet for one destination. -/
private def loopPacket (o : OpcodeType) (tag : TagType) : ExecutionPacket :=
  ⟨7,0,o.bits,tag,0,0,0,oneOutputMarker⟩

theorem retags_itg (t : TagType) : Retags .ITG 0 t (t+1) :=
  .fires ⟨⟨⟨0,0,0⟩,⟨0,0,0⟩,0⟩,0,0⟩ (fun _ => 0) 0 0 (loopPacket .ITG t) _ ⟨0,7,t+1⟩ rfl rfl rfl rfl
    (List.mem_cons_self ..)

theorem retags_sil (t : TagType) : Retags .SIL 0 t (createTag (tagToTagArea t) 0) :=
  .fires ⟨⟨⟨0,0,0⟩,⟨0,0,0⟩,0⟩,0,0⟩ (fun _ => 0) 0 0 (loopPacket .SIL t) _
    ⟨0,7,createTag (tagToTagArea t) 0⟩ rfl rfl rfl rfl (List.mem_cons_self ..)

theorem iteration_tags_two : tagToTagArea 0x500000002=tagToTagArea 0x500000000 ∧
    (0x500000000 : TagType)=createTag (tagToTagArea 0x500000000) 0 :=
  (iteration_tags_iff 0x500000000 0x500000002 0x500000000 2
    (.succ 0 (.succ 0 (.zero _) (retags_itg _)) (retags_itg _)) (retags_sil 0x500000002)).mpr
      (by decide)

/-- The round after the count 2^32-1 is in the next area. -/
theorem iteration_tag_leaks : Iterates 1 0x5ffffffff 0x600000000 ∧
    Retags .SIL 0 0x600000000 0x600000000 ∧
      ¬(tagToTagArea 0x600000000=tagToTagArea 0x5ffffffff ∧
        (0x600000000 : TagType)=createTag (tagToTagArea 0x5ffffffff) 0) :=
  ⟨.succ 0 (.zero _) (retags_itg _),retags_sil 0x600000000,by decide⟩

end Manchester
