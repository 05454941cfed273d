import Manchester.Loader.Outcome

namespace Manchester

/-- A node of the list. Nodes are named by the order in which they were allocated. -/
structure ExportCell where
  node : ExportNode
  next : Option Nat
  deriving DecidableEq, Repr

/-- The allocated nodes and the global `exports`. No node is ever freed. -/
structure ExportHeap where
  cells : List ExportCell
  exports : Option Nat
  deriving DecidableEq, Repr

namespace ExportHeap

def empty : ExportHeap := ⟨[],none⟩

/-- The nodes that a loop along `next` comes to. A round for each node is enough. -/
def walkFrom (cells : List ExportCell) : Nat → Option Nat → List ExportNode
  | 0,_ => []
  | _,none => []
  | n+1,some cur =>
    match cells[cur]? with
    | none => []
    | some cell => cell.node::walkFrom cells n cell.next

def walk (heap : ExportHeap) (cur : Option Nat) : List ExportNode :=
  walkFrom heap.cells heap.cells.length cur

/-- The loop that looks for the last node. -/
def findTail (cells : List ExportCell) : Nat → Option Nat → Option Nat
  | 0,tail => tail
  | _,none => none
  | n+1,some tail =>
    match cells[tail]?.bind ExportCell.next with
    | none => some tail
    | some next => findTail cells n (some next)

/-- What the loop over the new exports changes. -/
structure Adding where
  heap : ExportHeap
  tail : Option Nat
  firstExport : Option Nat

/-- One round of that loop. -/
def addExport (toAdd : BitVec 32) (s : Adding) (symbol : ExportSymbol) : Adding :=
  let new := s.heap.cells.length
  let cell : ExportCell := ⟨newExportNode toAdd symbol,none⟩
  let first := s.firstExport.getD new
  match s.tail with
  | none => ⟨⟨s.heap.cells++[cell],some new⟩,some new,some first⟩
  | some tail =>
    ⟨⟨s.heap.cells.modify tail (fun c => {c with next := some new})++[cell],s.heap.exports⟩,
      some new,some first⟩

/-- The end of `load_file`: the list with the new exports, and the first of them. -/
def addExports (heap : ExportHeap) (toAdd : BitVec 32) (symbols : List ExportSymbol) :
    ExportHeap × Option Nat :=
  let s := symbols.foldl (addExport toAdd)
    ⟨heap,findTail heap.cells heap.cells.length heap.exports,none⟩
  (s.heap,s.firstExport)

/-- Cell n, if there are more than n cells. -/
def cellAt (n length : Nat) : Option Nat := if n < length then some n else none

/-- Each node leads to the one allocated after it. -/
structure Chained (heap : ExportHeap) : Prop where
  exports : heap.exports=cellAt 0 heap.cells.length
  next : ∀ i cell,heap.cells[i]?=some cell → cell.next=cellAt (i+1) heap.cells.length

/-- The list holds these exports, in this order. -/
structure Lists (heap : ExportHeap) (exports : List ExportNode) : Prop where
  chained : heap.Chained
  nodes : heap.cells.map ExportCell.node=exports

theorem lists_empty : empty.Lists [] :=
  ⟨⟨rfl,by simp [empty]⟩,rfl⟩

section Heap

variable {heap : ExportHeap}

theorem Chained.walkFrom (h : heap.Chained) (n k : Nat) (hn : heap.cells.length ≤ k+n) :
    walkFrom heap.cells n (cellAt k heap.cells.length)=
      (heap.cells.drop k).map ExportCell.node := by
  induction n generalizing k with
  | zero => simp [ExportHeap.walkFrom,List.drop_of_length_le (show heap.cells.length ≤ k from hn)]
  | succ n ih =>
    by_cases hk : k < heap.cells.length
    · have hcell := List.getElem?_eq_getElem hk
      rw [cellAt,if_pos hk,ExportHeap.walkFrom,hcell]
      simp only [h.next k _ hcell]
      rw [ih (k+1) (by omega),List.drop_eq_getElem_cons hk,List.map_cons]
    · rw [cellAt,if_neg hk,List.drop_of_length_le (Nat.le_of_not_lt hk)]
      rfl

/-- A walk from node k comes to all that was allocated from it on. -/
theorem Lists.walk {exports : List ExportNode} (h : heap.Lists exports) (k : Nat) :
    heap.walk (cellAt k heap.cells.length)=exports.drop k := by
  rw [ExportHeap.walk,h.chained.walkFrom _ k (Nat.le_add_left _ _),List.map_drop,h.nodes]

/-- The last node. -/
def lastCell (length : Nat) : Option Nat := if length=0 then none else some (length-1)

theorem Chained.findTail (h : heap.Chained) (n k : Nat) (hk : k < heap.cells.length)
    (hn : heap.cells.length ≤ k+n) :
    findTail heap.cells n (some k)=some (heap.cells.length-1) := by
  induction n generalizing k with
  | zero => omega
  | succ n ih =>
    have hcell := List.getElem?_eq_getElem hk
    rw [ExportHeap.findTail,hcell,Option.bind_some,h.next k _ hcell,cellAt]
    by_cases hlast : k+1 < heap.cells.length
    · simp only [if_pos hlast]
      exact ih (k+1) hlast (by omega)
    · simp only [if_neg hlast]
      congr 1
      omega

theorem Chained.tail (h : heap.Chained) :
    ExportHeap.findTail heap.cells heap.cells.length heap.exports=lastCell heap.cells.length := by
  rw [h.exports,cellAt,lastCell]
  by_cases hempty : heap.cells.length=0
  · rw [hempty]
    rfl
  · rw [if_pos (Nat.pos_of_ne_zero hempty),if_neg hempty]
    exact h.findTail _ 0 (Nat.pos_of_ne_zero hempty) (by omega)

/-- The loop has added to a list of `old` nodes so far. -/
structure AddedTo (old : List ExportNode) (new : List ExportNode) (s : Adding) : Prop where
  lists : s.heap.Lists (old++new)
  tail : s.tail=lastCell s.heap.cells.length
  first : s.firstExport=cellAt old.length s.heap.cells.length

theorem Lists.length {exports : List ExportNode} (h : heap.Lists exports) :
    heap.cells.length=exports.length := by
  rw [← h.nodes,List.length_map]

/-- The links once a node has been put behind the last one. -/
theorem Lists.snoc {exports : List ExportNode} (h : heap.Lists exports) (node : ExportNode)
    (cells : List ExportCell) (start : Option Nat)
    (hstart : start=some 0)
    (hnodes : cells.map ExportCell.node=heap.cells.map ExportCell.node)
    (hnext : ∀ i cell,cells[i]?=some cell → cell.next=some (i+1)) :
    Lists ⟨cells++[⟨node,none⟩],start⟩ (exports++[node]) := by
  have hlength : cells.length=heap.cells.length := by
    simpa using congrArg List.length hnodes
  refine ⟨⟨?_,?_⟩,?_⟩
  · rw [hstart,cellAt,if_pos (by simp)]
  · intro i cell hcell
    rw [List.length_append,List.length_singleton]
    by_cases hi : i < cells.length
    · rw [List.getElem?_append_left hi] at hcell
      rw [hnext i cell hcell,cellAt,if_pos (by omega)]
    · have hlt := (List.getElem?_eq_some_iff.mp hcell).1
      rw [List.length_append,List.length_singleton] at hlt
      obtain rfl : i=cells.length := by omega
      rw [List.getElem?_append_right (Nat.le_refl _),Nat.sub_self] at hcell
      obtain rfl := Option.some.inj hcell
      rw [cellAt,if_neg (by omega)]
  · rw [List.map_append,hnodes,h.nodes]
    rfl

theorem relinked_nodes (cells : List ExportCell) (i : Nat) (next : Option Nat) :
    (cells.modify i fun c => {c with next := next}).map ExportCell.node=
      cells.map ExportCell.node := by
  apply List.ext_getElem?
  intro j
  rw [List.getElem?_map,List.getElem?_map,List.getElem?_modify]
  cases cells[j]? with
  | none => rfl
  | some cell =>
    simp only [Option.map_eq_map,Option.map_some]
    split_ifs <;> rfl

theorem AddedTo.step {old new : List ExportNode} {s : Adding} (h : AddedTo old new s)
    (toAdd : BitVec 32) (symbol : ExportSymbol) :
    AddedTo old (new++[newExportNode toAdd symbol]) (addExport toAdd s symbol) := by
  have hlength := h.lists.length
  rw [List.length_append] at hlength
  have hfirst : some (s.firstExport.getD s.heap.cells.length)=
      cellAt old.length (s.heap.cells.length+1) := by
    have hplace : cellAt old.length (s.heap.cells.length+1)=some old.length :=
      if_pos (by omega)
    rw [hplace,h.first,cellAt]
    by_cases hnew : old.length < s.heap.cells.length
    · rw [if_pos hnew]
      rfl
    · rw [if_neg hnew,Option.getD_none]
      congr 1
      omega
  have htail := h.tail
  rw [lastCell] at htail
  by_cases hempty : s.heap.cells.length=0
  · -- the first node of all
    rw [if_pos hempty] at htail
    have hnil : s.heap.cells=[] := List.eq_nil_of_length_eq_zero hempty
    have hlists := h.lists.snoc (newExportNode toAdd symbol) s.heap.cells
      (some s.heap.cells.length) (by rw [hempty]) rfl (by simp [hnil])
    simp only [addExport,htail]
    refine ⟨?_,?_,?_⟩
    · rw [← List.append_assoc]
      exact hlists
    · simp [lastCell]
    · simpa using hfirst
  · rw [if_neg hempty] at htail
    have hlists := h.lists.snoc (newExportNode toAdd symbol)
      (s.heap.cells.modify (s.heap.cells.length-1)
        (fun c => {c with next := some s.heap.cells.length})) s.heap.exports
      (by rw [h.lists.chained.exports,cellAt,if_pos (by omega)])
      (relinked_nodes _ _ _) (by
        intro i cell hcell
        rw [List.getElem?_modify] at hcell
        obtain ⟨before,hbefore,rfl⟩ := Option.map_eq_some_iff.mp hcell
        have hlt := (List.getElem?_eq_some_iff.mp hbefore).1
        have hnext := h.lists.chained.next i before hbefore
        rw [cellAt] at hnext
        split_ifs with hlast
        · show some s.heap.cells.length=_
          congr 1
          omega
        · rw [hnext,if_pos (by omega)])
    simp only [addExport,htail]
    refine ⟨?_,?_,?_⟩
    · rw [← List.append_assoc]
      exact hlists
    · simp [lastCell]
    · simpa using hfirst

theorem AddedTo.run {old new : List ExportNode} {s : Adding} (h : AddedTo old new s)
    (toAdd : BitVec 32) (symbols : List ExportSymbol) :
    AddedTo old (new++symbols.map (newExportNode toAdd)) (symbols.foldl (addExport toAdd) s) := by
  induction symbols generalizing s new with
  | nil => simpa using h
  | cons symbol symbols ih =>
    have hrest := ih (h.step toAdd symbol)
    rw [List.append_assoc] at hrest
    exact hrest

/-- The new exports stand at the end of the list, and a walk from the first of them comes to them
alone. -/
theorem addExports_lists {exports : List ExportNode} (h : heap.Lists exports) (toAdd : BitVec 32)
    (symbols : List ExportSymbol) :
    (addExports heap toAdd symbols).1.Lists (exports++symbols.map (newExportNode toAdd)) ∧
      (addExports heap toAdd symbols).1.walk (addExports heap toAdd symbols).2=
        symbols.map (newExportNode toAdd) := by
  have hstart : AddedTo exports [] ⟨heap,findTail heap.cells heap.cells.length heap.exports,none⟩ :=
    ⟨by simpa using h,h.chained.tail,by rw [cellAt,if_neg (by rw [h.length]; omega)]⟩
  have hadded := hstart.run toAdd symbols
  rw [List.nil_append] at hadded
  refine ⟨hadded.lists,?_⟩
  show ExportHeap.walk _ _=_
  rw [addExports]
  simp only
  rw [hadded.first,hadded.lists.walk,List.drop_left]

end Heap

end ExportHeap
end Manchester
