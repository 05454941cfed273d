import Mathlib.Data.List.Nodup
import Mathlib.Logic.ExistsUnique

namespace Fanout

/-- A slot of a cell holds a receiver, or leads to another cell. -/
inductive Slot (R : Type*) where
  | leaf (r : R)
  | node (q : Nat)

/-- Cells of two slots. -/
abbrev Cells (R : Type*) := Nat → Option (Slot R) × Option (Slot R)

def slot {R : Type*} (c : Cells R) (q : Nat) (second : Bool) : Option (Slot R) :=
  if second then (c q).2 else (c q).1

variable {R : Type*}

/-- The slots taken from cell q to a receiver. -/
inductive Path (c : Cells R) : Nat → List Bool → R → Prop where
  | leaf {q : Nat} {b : Bool} {r : R} (h : slot c q b=some (.leaf r)) : Path c q [b] r
  | node {q next : Nat} {b : Bool} {bs : List Bool} {r : R} (h : slot c q b=some (.node next))
      (hp : Path c next bs r) : Path c q (b::bs) r

/-- The slots taken from cell p to cell q. -/
inductive Trail (c : Cells R) (p : Nat) : List Bool → Nat → Prop where
  | here : Trail c p [] p
  | step {q next : Nat} {b : Bool} {bs : List Bool} (h : Trail c p bs q)
      (hs : slot c q b=some (.node next)) : Trail c p (bs++[b]) next

namespace Trail

variable {c c' : Cells R} {p q : Nat} {bs : List Bool}

theorem append_path {cs : List Bool} {r : R} (h : Trail c p bs q) (hp : Path c q cs r) :
    Path c p (bs++cs) r := by
  induction h generalizing cs with
  | here => exact hp
  | step _ hs ih =>
    rw [List.append_assoc,List.singleton_append]
    exact ih (.node hs hp)

theorem unique {q' : Nat} (h : Trail c p bs q) (h' : Trail c p bs q') : q=q' := by
  induction h generalizing q' with
  | here =>
    generalize hnil : ([] : List Bool)=cs at h'
    cases h' with
    | here => rfl
    | step _ _ => simp at hnil
  | @step q next b bs _ hs ih =>
    generalize hsame : bs++[b]=cs at h'
    cases h' with
    | here => simp at hsame
    | @step q'' next' b' bs' h' hs' =>
      obtain ⟨rfl,hlast⟩ := List.append_inj' hsame rfl
      obtain rfl := (List.cons.inj hlast).1
      obtain rfl := ih h'
      exact Slot.node.inj (Option.some.inj (hs.symm.trans hs'))

theorem trans {r : Nat} {cs : List Bool} (h : Trail c p bs q) (h' : Trail c q cs r) :
    Trail c p (bs++cs) r := by
  induction h' with
  | here => rwa [List.append_nil]
  | step _ hs ih =>
    rw [← List.append_assoc]
    exact .step ih hs

/-- Cells that lead on to the same cells, if by other slots, are reached from the same cells. -/
theorem detour (h : Trail c p bs q) (hc : ∀ q b next,slot c q b=some (.node next) →
    ∃ cs,Trail c' q cs next) : ∃ cs,Trail c' p cs q := by
  induction h with
  | here => exact ⟨[],.here⟩
  | @step q next b bs _ hs ih =>
    obtain ⟨cs,hcs⟩ := ih
    obtain ⟨ds,hds⟩ := hc q b next hs
    exact ⟨cs++ds,hcs.trans hds⟩

end Trail

/-- Cell q delivers to the receivers `rs` in order: one cell holds up to two of them, and a longer
row is a chain in which each cell holds its first one. The chain ends in cell `tail`, and all its
cells satisfy `own`. -/
inductive Chain (c : Cells R) (own : Nat → Prop) : Nat → List R → Nat → Prop where
  | empty {q : Nat} (hq : own q) (h : c q=(none,none)) : Chain c own q [] q
  | one {q : Nat} {r : R} (hq : own q) (h : c q=(some (.leaf r),none)) : Chain c own q [r] q
  | two {q : Nat} {r s : R} (hq : own q) (h : c q=(some (.leaf r),some (.leaf s))) :
      Chain c own q [r,s] q
  | more {q next tail : Nat} {r : R} {rs : List R} (hq : own q)
      (h : c q=(some (.leaf r),some (.node next))) (hlen : 2 ≤ rs.length)
      (ht : Chain c own next rs tail) : Chain c own q (r::rs) tail

namespace Chain

variable {c c' : Cells R} {own own' : Nat → Prop} {q tail : Nat} {rs : List R}

theorem own_tail (h : Chain c own q rs tail) : own tail := by
  induction h with
  | empty hq _ => exact hq
  | one hq _ => exact hq
  | two hq _ => exact hq
  | more _ _ _ _ ih => exact ih

theorem tail_eq (h : Chain c own q rs tail) (hlen : rs.length ≤ 2) : tail=q := by
  cases h with
  | empty _ _ => rfl
  | one _ _ => rfl
  | two _ _ => rfl
  | more _ _ hmore _ =>
    rw [List.length_cons] at hlen
    omega

/-- What is outside the chain does not matter. -/
theorem congr (h : Chain c own q rs tail) (hown : ∀ p,own p → own' p)
    (hc : ∀ p,own p → c' p=c p) : Chain c' own' q rs tail := by
  induction h with
  | empty hq h => exact .empty (hown _ hq) ((hc _ hq).trans h)
  | one hq h => exact .one (hown _ hq) ((hc _ hq).trans h)
  | two hq h => exact .two (hown _ hq) ((hc _ hq).trans h)
  | more hq h hlen _ ih => exact .more (hown _ hq) ((hc _ hq).trans h) hlen ih

theorem cell_nil (h : Chain c own q [] tail) : c tail=(none,none) := by
  cases h with
  | empty _ h => exact h

theorem cell_singleton {r : R} (h : Chain c own q [r] tail) : c tail=(some (.leaf r),none) := by
  cases h with
  | one _ h => exact h
  | more _ _ hlen _ => simp at hlen

/-- The end of a long chain holds the last two receivers. -/
theorem cell_full (h : Chain c own q rs tail) (hlen : 2 ≤ rs.length) :
    ∃ a b,c tail=(some (.leaf a),some (.leaf b)) := by
  induction h with
  | empty _ _ => simp at hlen
  | one _ _ => simp at hlen
  | two _ h => exact ⟨_,_,h⟩
  | more _ _ hmore _ ih => exact ih hmore

theorem fill_first {r : R} (h : Chain c own q [] tail) (hown : ∀ p,own p → own' p)
    (hc : c' tail=(some (.leaf r),none)) : Chain c' own' q [r] tail := by
  cases h with
  | empty hq _ => exact .one (hown _ hq) hc

theorem fill_second {a r : R} (h : Chain c own q [a] tail) (hown : ∀ p,own p → own' p)
    (hc : c' tail=(some (.leaf a),some (.leaf r))) : Chain c' own' q [a,r] tail := by
  cases h with
  | one hq _ => exact .two (hown _ hq) hc
  | more _ _ hlen _ => simp at hlen

/-- The second receiver of the end moves to a new cell, together with the new receiver. -/
theorem split {a b r : R} {k : Nat} (h : Chain c own q rs tail) (hlen : 2 ≤ rs.length)
    (htail : c tail=(some (.leaf a),some (.leaf b))) (hown : ∀ p,own p → own' p) (hk : own' k)
    (hc : ∀ p,own p → p ≠ tail → c' p=c p) (hct : c' tail=(some (.leaf a),some (.node k)))
    (hck : c' k=(some (.leaf b),some (.leaf r))) : Chain c' own' q (rs++[r]) k := by
  induction h with
  | empty _ _ => simp at hlen
  | one _ _ => simp at hlen
  | two hq h =>
    rw [h] at htail
    simp only [Prod.mk.injEq,Option.some.injEq,Slot.leaf.injEq] at htail
    obtain ⟨rfl,rfl⟩ := htail
    exact .more (hown _ hq) hct (by simp) (.two hk hck)
  | more hq h hmore _ ih =>
    refine .more (hown _ hq) ((hc _ hq ?_).trans h) ?_ (ih hmore htail hc hct)
    · rintro rfl
      rw [h] at htail
      simp at htail
    · simp only [List.append_eq,List.length_append]
      omega

theorem path_iff {x y : Option (Slot R)} (h : c q=(x,y)) (bs : List Bool) (r : R) :
    Path c q bs r ↔
      (bs=[false] ∧ x=some (.leaf r)) ∨ (bs=[true] ∧ y=some (.leaf r)) ∨
      (∃ next bs',bs=false::bs' ∧ x=some (.node next) ∧ Path c next bs' r) ∨
      (∃ next bs',bs=true::bs' ∧ y=some (.node next) ∧ Path c next bs' r) := by
  constructor
  · intro hp
    cases hp with
    | @leaf _ b _ hs => cases b <;> simp_all [slot]
    | @node _ next b bs' _ hs hp =>
      cases b
      · exact Or.inr (Or.inr (Or.inl ⟨_,_,rfl,by simpa [slot,h] using hs,hp⟩))
      · exact Or.inr (Or.inr (Or.inr ⟨_,_,rfl,by simpa [slot,h] using hs,hp⟩))
  · rintro (⟨rfl,hx⟩ | ⟨rfl,hy⟩ | ⟨next,bs',rfl,hx,hp⟩ | ⟨next,bs',rfl,hy,hp⟩)
    · exact .leaf (by simp [slot,h,hx])
    · exact .leaf (by simp [slot,h,hy])
    · exact .node (by simp [slot,h,hx]) hp
    · exact .node (by simp [slot,h,hy]) hp

theorem path_mem (h : Chain c own q rs tail) (bs : List Bool) (r : R) (hp : Path c q bs r) :
    r∈rs := by
  induction h generalizing bs with
  | empty _ h => simp [path_iff h] at hp
  | one _ h =>
    simp [path_iff h] at hp
    simp [hp]
  | two _ h =>
    simp [path_iff h] at hp
    obtain ⟨-,rfl⟩ | ⟨-,rfl⟩ := hp <;> simp
  | more _ h _ _ ih =>
    simp [path_iff h] at hp
    obtain ⟨-,rfl⟩ | ⟨bs',-,hp⟩ := hp
    · simp
    · exact List.mem_cons_of_mem _ (ih bs' hp)

/-- A chain without repetition reaches each of its receivers by one path. -/
theorem path_unique (h : Chain c own q rs tail) (hn : rs.Nodup) (r : R) (hr : r∈rs) :
    ∃! bs,Path c q bs r := by
  induction h with
  | empty _ _ => simp at hr
  | one _ h =>
    obtain rfl := List.mem_singleton.mp hr
    exact ⟨[false],by simp [path_iff h],fun bs hp => by simpa [path_iff h] using hp⟩
  | @two q a b _ h =>
    have hab : a ≠ b := by simpa using hn
    obtain rfl | hr := List.mem_cons.mp hr
    · exact ⟨[false],by simp [path_iff h],fun bs hp => by
        simpa [path_iff h,hab.symm] using hp⟩
    · obtain rfl := List.mem_singleton.mp hr
      exact ⟨[true],by simp [path_iff h],fun bs hp => by simpa [path_iff h,hab] using hp⟩
  | more _ h _ ht ih =>
    obtain ⟨hnot,hn⟩ := List.nodup_cons.mp hn
    obtain rfl | hr := List.mem_cons.mp hr
    · refine ⟨[false],by simp [path_iff h],?_⟩
      intro bs hp
      simp [path_iff h] at hp
      obtain hp | ⟨bs',-,hp⟩ := hp
      · exact hp
      · exact absurd (ht.path_mem bs' _ hp) hnot
    · obtain ⟨bs,hbs,hunique⟩ := ih hn hr
      refine ⟨true::bs,by simp [path_iff h,hbs],?_⟩
      intro bs' hp
      simp [path_iff h] at hp
      obtain ⟨-,rfl⟩ | ⟨bs'',rfl,hp⟩ := hp
      · exact absurd hr hnot
      · rw [hunique bs'' hp]

end Chain

end Fanout
