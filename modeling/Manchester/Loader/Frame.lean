import Manchester.Framework.Transition
import Manchester.Loader.Placed

namespace Manchester

/-- `after` extends `before`: its old instructions and its resolved names are those of `before`. -/
structure Extends (before after : InstructionStore) : Prop where
  instructions : before.instructions <+: after.instructions
  exports : before.exports <+: after.exports

namespace Extends

theorem refl (store : InstructionStore) : Extends store store :=
  ⟨List.prefix_rfl,List.prefix_rfl⟩

theorem trans {a b c : InstructionStore} (h : Extends a b) (k : Extends b c) : Extends a c :=
  ⟨h.instructions.trans k.instructions,h.exports.trans k.exports⟩

end Extends

/-- The loop over the references of the file does not write behind the store. -/
def KeepsInside (store : InstructionStore) (file : Option (List UInt8)) : Prop :=
  ∀ sephi,Admitted store file sephi →
    WritesInside sephi.instructions.length sephi.externalReferences

end Manchester
