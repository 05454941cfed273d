import Manchester.Assembler.Reading
import Manchester.Framework.Fanout

namespace Manchester.Assembler

open Fanout

-- Nodes with an id from `n0` on are the DUP nodes that the fix-up loop inserts. A destination at
-- an older node is an operand position.

def target (n0 : Nat) (d : Destination) : Slot Destination :=
  if d.node < n0 then .leaf d else .node d.node

def cells (n0 : Nat) (heap : List Node) : Cells Destination := fun q =>
  match heap[q]? with
  | none => (none,none)
  | some node => (node.destination1.map (target n0),node.destination2.map (target n0))

theorem target_of_lt {n0 : Nat} {d : Destination} (h : d.node < n0) :
    target n0 d=.leaf d := if_pos h

theorem cells_some {n0 : Nat} {heap : List Node} {q : Nat} {node : Node}
    (h : heap[q]?=some node) :
    cells n0 heap q=(node.destination1.map (target n0),node.destination2.map (target n0)) := by
  simp [cells,h]

/-- Node p delivers to the operand positions `us`; the nodes on the way are owned by p. -/
def Delivers (n0 : Nat) (s : IrState) (owner : Nat → Nat) (p : Nat) (us : List Destination)
    (tail : Nat) : Prop :=
  Chain (cells n0 s.heap) (fun q => q < s.heap.length ∧ owner q=p) p us tail

/-- What a round for the producers `ps` leaves alone. -/
structure Keeps (n0 : Nat) (s s' : IrState) (owner owner' : Nat → Nat) (ps : List Nat) :
    Prop where
  size : s.heap.length ≤ s'.heap.length
  labels : s'.labels=s.labels
  owned : ∀ q < s.heap.length,owner' q=owner q
  cell : ∀ q < s.heap.length,owner q∉ps → cells n0 s'.heap q=cells n0 s.heap q

namespace Keeps

variable {n0 : Nat} {s s' s'' : IrState} {owner owner' owner'' : Nat → Nat} {ps qs : List Nat}

theorem refl (n0 : Nat) (s : IrState) (owner : Nat → Nat) (ps : List Nat) :
    Keeps n0 s s owner owner ps :=
  ⟨Nat.le_refl _,rfl,fun _ _ => rfl,fun _ _ _ => rfl⟩

theorem trans (h : Keeps n0 s s' owner owner' ps) (k : Keeps n0 s' s'' owner' owner'' qs) :
    Keeps n0 s s'' owner owner'' (ps++qs) := by
  have hlt : ∀ q < s.heap.length,q < s'.heap.length := fun q hq => Nat.lt_of_lt_of_le hq h.size
  constructor
  · exact Nat.le_trans h.size k.size
  · rw [k.labels,h.labels]
  · intro q hq
    rw [k.owned q (hlt q hq),h.owned q hq]
  · intro q hq hout
    rw [List.mem_append,not_or] at hout
    rw [k.cell q (hlt q hq) (by rw [h.owned q hq]; exact hout.2),h.cell q hq hout.1]

theorem mono (h : Keeps n0 s s' owner owner' ps) (hsub : ps⊆qs) :
    Keeps n0 s s' owner owner' qs :=
  ⟨h.size,h.labels,h.owned,fun q hq hout => h.cell q hq fun hmem => hout (hsub hmem)⟩

theorem delivers (h : Keeps n0 s s' owner owner' ps) {p tail : Nat} {us : List Destination}
    (hp : p∉ps) (hd : Delivers n0 s owner p us tail) : Delivers n0 s' owner' p us tail := by
  refine Chain.congr hd ?_ ?_
  · intro q ⟨hq,hown⟩
    exact ⟨Nat.lt_of_lt_of_le hq h.size,by rw [h.owned q hq,hown]⟩
  · intro q ⟨hq,hown⟩
    exact h.cell q hq (by rwa [hown])

end Keeps

theorem cells_set_ne {n0 : Nat} {heap : List Node} {p q : Nat} (node : Node) (h : q ≠ p) :
    cells n0 (heap.set p node) q=cells n0 heap q := by
  simp [cells,List.getElem?_set_ne (Ne.symm h)]

theorem cells_set_self {n0 : Nat} {heap : List Node} {p : Nat} (node : Node)
    (h : p < heap.length) : cells n0 (heap.set p node) p=
      (node.destination1.map (target n0),node.destination2.map (target n0)) :=
  cells_some (List.getElem?_set_self h)

theorem cells_append {n0 : Nat} {heap : List Node} {q : Nat} (more : List Node)
    (h : q < heap.length) : cells n0 (heap++more) q=cells n0 heap q := by
  simp [cells,List.getElem?_append_left h]

theorem keeps_set {n0 : Nat} {s : IrState} {owner : Nat → Nat} {p tail : Nat} (new : Node)
    (hown : owner tail=p) :
    Keeps n0 s {s with heap := s.heap.set tail new} owner owner [p] := by
  refine ⟨by simp,rfl,fun _ _ => rfl,?_⟩
  intro q hq hne
  apply cells_set_ne
  rintro rfl
  exact hne (by simp [hown])

theorem keeps_append (n0 : Nat) (s : IrState) (owner : Nat → Nat) (p : Nat) (node : Node)
    (variableMap : Name → List Nat) :
    Keeps n0 s {s with heap := s.heap++[node],variableMap := variableMap} owner
      (Function.update owner s.heap.length p) [] where
  size := by simp
  labels := rfl
  owned := fun q hq => Function.update_of_ne (Nat.ne_of_lt hq) _ _
  cell := fun q hq _ => cells_append _ hq

/-- The third receiver and each later one: the chain grows by a node, which takes over what its
end had second. -/
theorem connect_grows {n0 : Nat} {s : IrState} {owner : Nat → Nat} {p tail : Nat}
    {us : List Destination} (name : Name) (d : Destination) (hd : d.node < n0)
    (hn : n0 ≤ s.heap.length) (hlen : 2 ≤ us.length) (h : Delivers n0 s owner p us tail) :
    ∃ owner' tail',Keeps n0 s (connect name d s tail) owner owner' [p] ∧
      Delivers n0 (connect name d s tail) owner' p (us++[d]) tail' ∧
      (connect name d s tail).variableMap=Function.update s.variableMap name [tail'] := by
  obtain ⟨hlt,hown⟩ := Chain.own_tail h
  obtain ⟨parent,hnode⟩ : ∃ parent,s.heap[tail]?=some parent :=
    ⟨_,List.getElem?_eq_getElem hlt⟩
  have hcell : cells n0 s.heap tail=
      (parent.destination1.map (target n0),parent.destination2.map (target n0)) := cells_some hnode
  obtain ⟨x,y,hxy⟩ := h.cell_full hlen
  rw [hxy,Prod.mk.injEq] at hcell
  obtain ⟨d1,h1,ht1⟩ := Option.map_eq_some_iff.mp hcell.1.symm
  obtain ⟨d2,h2,ht2⟩ := Option.map_eq_some_iff.mp hcell.2.symm
  let new : Node := {parent with destination2 := some ⟨s.heap.length,.INPUT_ONE⟩}
  have hs : connect name d s tail=
      {s with
        heap := s.heap.set tail new++[dupNode parent.destination2 (some d)]
        variableMap := Function.update s.variableMap name [s.heap.length]} := by
    simp [connect,hnode,h1,h2,new]
  have hset : (s.heap.set tail new).length=s.heap.length := List.length_set
  have hfirst : Keeps n0 s {s with heap := s.heap.set tail new} owner owner [p] :=
    keeps_set new hown
  have hkeeps := hfirst.trans (keeps_append n0 {s with heap := s.heap.set tail new}
      owner p (dupNode parent.destination2 (some d))
      (Function.update s.variableMap name [s.heap.length]))
  rw [hs]
  refine ⟨_,s.heap.length,hkeeps,?_,rfl⟩
  refine Chain.split h hlen hxy ?_ ?_ ?_ ?_ ?_
  · intro q ⟨hq,hqown⟩
    refine ⟨by simp; omega,?_⟩
    rw [hset,Function.update_of_ne (Nat.ne_of_lt hq),hqown]
  · exact ⟨by simp,by rw [hset,Function.update_self]⟩
  · intro q ⟨hq,_⟩ hne
    rw [cells_append _ (by simpa using hq),cells_set_ne _ hne]
  · rw [cells_append _ (by simpa using hlt),cells_set_self _ hlt]
    have hnew : target n0 ⟨s.heap.length,.INPUT_ONE⟩=.node s.heap.length :=
      if_neg (Nat.not_lt.mpr hn)
    simp only [new,h1,Option.map_some,ht1,hnew]
  · have hdup : (s.heap.set tail new++[dupNode parent.destination2 (some d)])[s.heap.length]?=
        some (dupNode parent.destination2 (some d)) := by
      rw [List.getElem?_append_right (by simp),List.length_set,Nat.sub_self]
      rfl
    rw [cells_some hdup]
    simp only [dupNode,h2,Option.map_some,ht2,target_of_lt hd]

/-- One more receiver for a producer that already delivers to `us`. Its chain grows by a node, the
new only producer, when both spots of its end are taken. -/
theorem connect_delivers {n0 : Nat} {s : IrState} {owner : Nat → Nat} {p tail : Nat}
    {us : List Destination} (name : Name) (d : Destination) (hd : d.node < n0)
    (hn : n0 ≤ s.heap.length) (h : Delivers n0 s owner p us tail) :
    ∃ owner' tail',Keeps n0 s (connect name d s tail) owner owner' [p] ∧
      Delivers n0 (connect name d s tail) owner' p (us++[d]) tail' ∧
      (us.length < 2 → (connect name d s tail).variableMap=s.variableMap) ∧
      (2 ≤ us.length → (connect name d s tail).variableMap=
        Function.update s.variableMap name [tail']) := by
  obtain ⟨hlt,hown⟩ := Chain.own_tail h
  obtain ⟨parent,hnode⟩ : ∃ parent,s.heap[tail]?=some parent :=
    ⟨_,List.getElem?_eq_getElem hlt⟩
  have hcell : cells n0 s.heap tail=
      (parent.destination1.map (target n0),parent.destination2.map (target n0)) := cells_some hnode
  have hsame : ∀ (new : Node) (q : Nat),q < s.heap.length ∧ owner q=p →
      q < (s.heap.set tail new).length ∧ owner q=p := fun new q hq => by simpa using hq
  match us,h with
  | [],h =>
    rw [h.cell_nil,Prod.mk.injEq] at hcell
    have h1 : parent.destination1=none := by simpa using hcell.1.symm
    have h2 : parent.destination2=none := by simpa using hcell.2.symm
    have hs : connect name d s tail=
        {s with heap := s.heap.set tail {parent with destination1 := some d}} := by
      simp [connect,hnode,h1]
    rw [hs]
    refine ⟨owner,tail,keeps_set _ hown,
      Chain.fill_first h (hsame _) ?_,fun _ => rfl,fun hlen => by simp at hlen⟩
    simp [cells_set_self _ hlt,h2,target_of_lt hd]
  | [a],h =>
    rw [h.cell_singleton,Prod.mk.injEq] at hcell
    obtain ⟨d1,h1,ht1⟩ := Option.map_eq_some_iff.mp hcell.1.symm
    have h2 : parent.destination2=none := by simpa using hcell.2.symm
    have hs : connect name d s tail=
        {s with heap := s.heap.set tail {parent with destination2 := some d}} := by
      simp [connect,hnode,h1,h2]
    rw [hs]
    refine ⟨owner,tail,keeps_set _ hown,
      Chain.fill_second h (hsame _) ?_,fun _ => rfl,fun hlen => by simp at hlen⟩
    simp [cells_set_self _ hlt,h1,ht1,target_of_lt hd]
  | a::b::us,h =>
    have hlen : 2 ≤ (a::b::us).length := by simp
    obtain ⟨owner',tail',hkeeps,hdelivers,hmap⟩ := connect_grows name d hd hn hlen h
    exact ⟨owner',tail',hkeeps,hdelivers,fun hshort => absurd hlen (Nat.not_le.mpr hshort),
      fun _ => hmap⟩

/-- The loop over producers that are the ends of their own chains. The third receiver gives each
of them a new end, and the end of the last one is the only producer afterwards. -/
theorem connect_all {n0 : Nat} (name : Name) (d : Destination) (us : List Destination)
    (hd : d.node < n0) (roots : List Nat) (s : IrState)
    (owner : Nat → Nat) (hn : n0 ≤ s.heap.length) (hroots : roots.Nodup)
    (h : ∀p∈roots,Delivers n0 s owner p us p) :
    ∃ owner',Keeps n0 s (roots.foldl (connect name d) s) owner owner' roots ∧
      (∀p∈roots,∃ tail,Delivers n0 (roots.foldl (connect name d) s) owner' p (us++[d]) tail) ∧
      (us.length < 2 → (roots.foldl (connect name d) s).variableMap=s.variableMap) ∧
      (us.length=2 → ∀ init last,roots=init++[last] → ∃ tail,
        (roots.foldl (connect name d) s).variableMap=Function.update s.variableMap name [tail] ∧
        Delivers n0 (roots.foldl (connect name d) s) owner' last (us++[d]) tail) := by
  induction roots generalizing s owner with
  | nil => exact ⟨owner,Keeps.refl _ _ _ _,by simp,fun _ => rfl,fun _ init last h => by simp at h⟩
  | cons p roots ih =>
    obtain ⟨hp,hroots⟩ := List.nodup_cons.mp hroots
    obtain ⟨owner1,tail1,hkeep1,hdel1,hmap1,hmap1'⟩ :=
      connect_delivers name d hd hn (h p (by simp))
    have hrest : ∀q∈roots,Delivers n0 (connect name d s p) owner1 q us q := by
      intro q hq
      refine hkeep1.delivers ?_ (h q (by simp [hq]))
      rw [List.mem_singleton]
      rintro rfl
      exact hp hq
    obtain ⟨owner2,hkeep2,hdel2,hmap2,hmap2'⟩ :=
      ih (connect name d s p) owner1 (Nat.le_trans hn hkeep1.size) hroots hrest
    have hlast := hkeep2.delivers hp hdel1
    refine ⟨owner2,hkeep1.trans hkeep2,?_,?_,?_⟩
    · intro q hq
      obtain rfl | hq := List.mem_cons.mp hq
      · exact ⟨tail1,hlast⟩
      · exact hdel2 q hq
    · intro hlen
      rw [List.foldl_cons,hmap2 hlen,hmap1 hlen]
    · intro hlen init last hsplit
      cases init with
      | nil =>
        simp only [List.nil_append,List.cons.injEq] at hsplit
        obtain ⟨rfl,rfl⟩ := hsplit
        exact ⟨tail1,hmap1' (by omega),hlast⟩
      | cons p' init =>
        simp only [List.cons_append,List.cons.injEq] at hsplit
        obtain ⟨rfl,hsplit⟩ := hsplit
        obtain ⟨tail,hmap,hdel⟩ := hmap2' hlen init last hsplit
        refine ⟨tail,?_,hdel⟩
        rw [List.foldl_cons,hmap,hmap1' (by omega),Function.update_idem]

/-- How far the definitions `defs` of a variable are connected to its uses `us`, and which nodes
are its producers. With four uses or more only the last definition has all of them. -/
structure Hooked (n0 : Nat) (s : IrState) (owner : Nat → Nat) (defs producers : List Nat)
    (us : List Destination) : Prop where
  short : us.length ≤ 2 → producers=defs ∧ ∀p∈defs,Delivers n0 s owner p us p
  long : 2 < us.length → ∀ init last,defs=init++[last] →
    (∃ tail,producers=[tail] ∧ Delivers n0 s owner last us tail) ∧
      ∀p∈init,∃ tail,Delivers n0 s owner p (us.take 3) tail
  nil : defs=[] → producers=[]

theorem Hooked.keeps {n0 : Nat} {s s' : IrState} {owner owner' : Nat → Nat}
    {defs producers ps : List Nat} {us : List Destination}
    (h : Hooked n0 s owner defs producers us) (hk : Keeps n0 s s' owner owner' ps)
    (hd : ∀p∈defs,p∉ps) : Hooked n0 s' owner' defs producers us where
  short := fun hlen => ⟨(h.short hlen).1,fun p hp => hk.delivers (hd p hp) ((h.short hlen).2 p hp)⟩
  long := by
    rintro hlen init last rfl
    obtain ⟨⟨tail,hprod,hdel⟩,hinit⟩ := h.long hlen init last rfl
    refine ⟨⟨tail,hprod,hk.delivers (hd last (by simp)) hdel⟩,?_⟩
    intro p hp
    obtain ⟨t,ht⟩ := hinit p hp
    exact ⟨t,hk.delivers (hd p (by simp [hp])) ht⟩
  nil := h.nil

theorem connect_other (name w : Name) (hw : w ≠ name) (d : Destination) (s : IrState) (p : Nat) :
    (connect name d s p).variableMap w=s.variableMap w := by
  unfold connect
  split
  · rfl
  · split_ifs
    · rfl
    · rfl
    · exact Function.update_of_ne hw _ _

theorem hookUp_other (name w : Name) (hw : w ≠ name) (d : Destination) (s : IrState) :
    (hookUp s name d).variableMap w=s.variableMap w := by
  unfold hookUp
  generalize s.variableMap name=ps
  induction ps generalizing s with
  | nil => rfl
  | cons p ps ih => rw [List.foldl_cons,ih,connect_other name w hw]

/-- One more use of a variable. -/
theorem hookUp_hooked {n0 : Nat} {s : IrState} {owner : Nat → Nat} {defs : List Nat}
    {us : List Destination} (name : Name) (d : Destination) (hd : d.node < n0)
    (hn : n0 ≤ s.heap.length) (hdefs : defs.Nodup)
    (h : Hooked n0 s owner defs (s.variableMap name) us) :
    ∃ owner',Keeps n0 s (hookUp s name d) owner owner' defs ∧
      Hooked n0 (hookUp s name d) owner' defs ((hookUp s name d).variableMap name) (us++[d]) := by
  by_cases hlen : us.length ≤ 2
  · obtain ⟨hprod,hdel⟩ := h.short hlen
    obtain ⟨owner',hkeep,hall,hmap,hlast⟩ := connect_all name d us hd defs s owner hn hdefs hdel
    rw [hookUp,hprod]
    refine ⟨owner',hkeep,?_,?_,?_⟩
    · intro hlen'
      rw [List.length_append,List.length_singleton] at hlen'
      refine ⟨by rw [hmap (by omega),hprod],?_⟩
      intro p hp
      obtain ⟨tail,ht⟩ := hall p hp
      have htail : tail=p := ht.tail_eq (by rw [List.length_append]; exact hlen')
      exact htail ▸ ht
    · intro hlen' init last hsplit
      rw [List.length_append,List.length_singleton] at hlen'
      obtain ⟨tail,hupdate,ht⟩ := hlast (by omega) init last hsplit
      refine ⟨⟨tail,by rw [hupdate,Function.update_self],ht⟩,?_⟩
      intro p hp
      obtain ⟨t,hpt⟩ := hall p (by simp [hsplit,hp])
      exact ⟨t,by rwa [List.take_of_length_le (by simp; omega)]⟩
    · rintro rfl
      exact hprod
  · obtain rfl | ⟨init,last,rfl⟩ := List.eq_nil_or_concat' defs
    · rw [hookUp,h.nil rfl]
      refine ⟨owner,Keeps.refl _ _ _ _,?_,?_,fun _ => h.nil rfl⟩
      · intro hlen'
        rw [List.length_append] at hlen'
        omega
      · intro _ init last hsplit
        simp at hsplit
    · obtain ⟨⟨tail,hprod,hdel⟩,hinit⟩ := h.long (by omega) init last rfl
      obtain ⟨owner',tail',hkeep,hdel',-,hmap⟩ := connect_delivers name d hd hn hdel
      rw [hookUp,hprod,List.foldl_cons,List.foldl_nil]
      refine ⟨owner',hkeep.mono (by simp),?_,?_,by simp⟩
      · intro hlen'
        rw [List.length_append] at hlen'
        omega
      · intro _ init' last' hsplit
        obtain ⟨rfl,hl⟩ := List.append_inj' hsplit rfl
        obtain rfl := List.head_eq_of_cons_eq hl
        refine ⟨⟨tail',by rw [hmap (by omega),Function.update_self],hdel'⟩,?_⟩
        intro p hp
        have hne : p∉[last] := by
          intro hmem
          rw [List.nodup_append'] at hdefs
          exact hdefs.2.2 hp hmem
        obtain ⟨t,ht⟩ := hinit p hp
        refine ⟨t,?_⟩
        rw [List.take_append_of_le_length (by omega)]
        exact hkeep.delivers hne ht

end Manchester.Assembler
