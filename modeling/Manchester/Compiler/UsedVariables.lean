import Manchester.Compiler.Syntax

namespace Manchester.Compiler

/-- The names of the nodes. -/
inductive Rule where
  | program | statements | functionDef | functionName | argList | varName | whileLoop
  | conditional | elseClause | lhs | string | number | hexnumber | expressionFunctionArgList
  | functionCall | outsLiteral | binaryOperation | op (o : Op) | returnStatement
  | exportStatement | externStatement | asmStatement | assignment
  deriving DecidableEq, Repr

inductive ParseTree where
  | token (text : Name)
  | node (data : Rule) (children : List ParseTree)

/-- The values of the pass. A token is a string, and a node without a handler stays a tree. -/
inductive PyValue where
  | str (s : Name)
  | list (elements : List PyValue)
  | tree (data : Rule) (children : List PyValue)

inductive PyError where
  | typeError | attributeError | indexError
  deriving DecidableEq, Repr

namespace PyValue

def isList : PyValue → Bool
  | list _ => true
  | _ => false

/-- What a loop over the value goes through. -/
def iterate : PyValue → Except PyError (List PyValue)
  | str s => .ok (s.map fun c => str [c])
  | list elements => .ok elements
  | tree _ _ => .error .typeError

/-- `itertools.chain.from_iterable`, as a list. -/
def chainFromIterable : List PyValue → Except PyError (List PyValue)
  | [] => .ok []
  | v::vs =>
    match v.iterate,chainFromIterable vs with
    | .ok xs,.ok rest => .ok (xs++rest)
    | .error e,_ => .error e
    | _,.error e => .error e

mutual

/-- How deep lists are nested in it. -/
def depth : PyValue → Nat
  | str _ => 0
  | list elements => depthAll elements+1
  | tree _ _ => 0

def depthAll : List PyValue → Nat
  | [] => 0
  | v::vs => max v.depth (depthAll vs)

end

theorem depthAll_append (xs ys : List PyValue) :
    depthAll (xs++ys)=max (depthAll xs) (depthAll ys) := by
  induction xs with
  | nil => simp [depthAll]
  | cons x xs ih => simp [depthAll,ih,Nat.max_assoc]

theorem depthAll_letters (s : Name) : depthAll (s.map fun c => str [c])=0 := by
  induction s with
  | nil => rfl
  | cons c s ih => simp [depthAll,depth,ih]

theorem depth_iterate {v : PyValue} {xs : List PyValue} (h : v.iterate=.ok xs) :
    depthAll xs ≤ v.depth-1 := by
  cases v with
  | str s =>
    cases h
    rw [depthAll_letters]
    exact Nat.zero_le _
  | list elements =>
    cases h
    simp [depth]
  | tree data children => cases h

theorem depthAll_chain {vs next : List PyValue} (h : chainFromIterable vs=.ok next) :
    depthAll next ≤ depthAll vs-1 := by
  induction vs generalizing next with
  | nil =>
    cases h
    exact Nat.zero_le _
  | cons v vs ih =>
    rw [chainFromIterable] at h
    split at h
    · rename_i xs rest hxs hrest
      cases h
      have hfirst := depth_iterate hxs
      have hlater := ih hrest
      rw [depthAll_append,depthAll]
      omega
    · cases h
    · cases h

theorem depthAll_pos {vs : List PyValue} (h : ¬vs.all (fun v => !v.isList)=true) :
    0 < depthAll vs := by
  induction vs with
  | nil => simp at h
  | cons v vs ih =>
    rw [depthAll]
    cases v with
    | list elements => simp [depth]
    | str s =>
      have hrest := ih (by simpa [isList] using h)
      omega
    | tree data children =>
      have hrest := ih (by simpa [isList] using h)
      omega

/-- The loop of `_flatten`: every round takes one level of lists away. -/
def flattenLoop (toReturn : List PyValue) : Except PyError (List PyValue) :=
  if toReturn.all (fun element => !element.isList)=true then .ok toReturn
  else
    match _ : chainFromIterable toReturn with
    | .error e => .error e
    | .ok next => flattenLoop next
  termination_by depthAll toReturn
  decreasing_by
    rename_i hdone hnext
    have hpos := depthAll_pos hdone
    have hless := depthAll_chain hnext
    omega

def flatten (tree : List PyValue) : Except PyError PyValue :=
  match chainFromIterable tree with
  | .error e => .error e
  | .ok toReturn => (flattenLoop toReturn).map list

/-- `xs.extend(ys)`, with the list that it changes as result. -/
def extend (xs ys : PyValue) : Except PyError PyValue :=
  match xs with
  | list elements => ys.iterate.map fun more => list (elements++more)
  | _ => .error .attributeError

end PyValue

/-- The handlers of the pass. A node without one is built again from what its children gave. -/
def callHandler (countLhs : Bool) : Rule → List PyValue → Except PyError PyValue
  | .statements,tree | .program,tree | .functionDef,tree | .conditional,tree | .whileLoop,tree
  | .functionCall,tree | .elseClause,tree | .expressionFunctionArgList,tree
  | .returnStatement,tree => PyValue.flatten tree
  | .argList,_ | .functionName,_ | .number,_ | .hexnumber,_ | .string,_ | .outsLiteral,_
  | .externStatement,_ | .asmStatement,_ => .ok (.list [])
  | .lhs,tree =>
    if countLhs then
      match tree[0]? with
      | some value => .ok value
      | none => .error .indexError
    else .ok (.list [])
  | .binaryOperation,tree =>
    match tree[2]?,tree[0]? with
    | some right,some left => right.extend left
    | _,_ => .error .indexError
  | .assignment,tree =>
    match tree[0]?,tree[1]? with
    | some target,some value => target.extend value
    | _,_ => .error .indexError
  | .varName,tree =>
    -- the grammar puts one token here
    match tree[0]? with
    | some (PyValue.str s) => .ok (.list [.str s])
    | some _ => .error .typeError
    | none => .error .indexError
  | .exportStatement,children => .ok (.tree .exportStatement children)
  | .op o,children => .ok (.tree (.op o) children)

mutual

/-- The pass goes over the tree from the leaves up. -/
def transform (countLhs : Bool) : ParseTree → Except PyError PyValue
  | .token text => .ok (.str text)
  | .node data children =>
    match transformAll countLhs children with
    | .error e => .error e
    | .ok values => callHandler countLhs data values

def transformAll (countLhs : Bool) : List ParseTree → Except PyError (List PyValue)
  | [] => .ok []
  | t::ts =>
    match transform countLhs t,transformAll countLhs ts with
    | .ok v,.ok vs => .ok (v::vs)
    | .error e,_ => .error e
    | _,.error e => .error e

end

def nameNode (data : Rule) (name : CName) : ParseTree := .node data [.token name.1]

inductive IsExpr : ParseTree → Prop where
  | functionCall (name : CName) : IsExpr (.node .functionCall [nameNode .functionName name])
  | functionCallArgs (name : CName) (args : List ParseTree) (hargs : ∀e∈args,IsExpr e) :
    IsExpr (.node .functionCall [nameNode .functionName name,.node .expressionFunctionArgList args])
  | outsLiteral (text : Name) : IsExpr (.node .outsLiteral [.token text])
  | binaryOperation (left : ParseTree) (o : Op) (right : ParseTree) (hleft : IsExpr left)
    (hright : IsExpr right) : IsExpr (.node .binaryOperation [left,.node (.op o) [],right])
  | varName (name : CName) : IsExpr (nameNode .varName name)
  | string (text : Name) : IsExpr (.node .string [.token text])
  | number (text : Name) : IsExpr (.node .number [.token text])
  | hexnumber (text : Name) : IsExpr (.node .hexnumber [.token text])

def argListNode (args : List CName) : ParseTree := .node .argList (args.map (nameNode .varName))

/-- Where the grammar has an optional part, there is a constructor with and one without it. -/
inductive IsStmt : ParseTree → Prop where
  | functionDef (name : CName) (body : List ParseTree) (hbody : ∀s∈body,IsStmt s) :
    IsStmt (.node .functionDef [nameNode .functionName name,.node .statements body])
  | functionDefArgs (name : CName) (args : List CName) (body : List ParseTree)
    (hbody : ∀s∈body,IsStmt s) : IsStmt (.node .functionDef
      [nameNode .functionName name,argListNode args,.node .statements body])
  | conditional (condition : ParseTree) (body : List ParseTree) (hcondition : IsExpr condition)
    (hbody : ∀s∈body,IsStmt s) : IsStmt (.node .conditional [condition,.node .statements body])
  | conditionalElse (condition : ParseTree) (body elseBody : List ParseTree)
    (hcondition : IsExpr condition) (hbody : ∀s∈body,IsStmt s) (helse : ∀s∈elseBody,IsStmt s) :
    IsStmt (.node .conditional [condition,.node .statements body,
      .node .elseClause [.node .statements elseBody]])
  | whileLoop (condition : ParseTree) (body : List ParseTree) (hcondition : IsExpr condition)
    (hbody : ∀s∈body,IsStmt s) : IsStmt (.node .whileLoop [condition,.node .statements body])
  | exportStatement (name : CName) :
    IsStmt (.node .exportStatement [nameNode .functionName name])
  | externStatement (name : CName) :
    IsStmt (.node .externStatement [nameNode .functionName name])
  | externStatementArgs (name : CName) (args : List CName) :
    IsStmt (.node .externStatement [nameNode .functionName name,argListNode args])
  | returnStatement : IsStmt (.node .returnStatement [])
  | returnValue (e : ParseTree) (he : IsExpr e) : IsStmt (.node .returnStatement [e])
  | asmStatement (text : Name) : IsStmt (.node .asmStatement [.token text])
  | expression (e : ParseTree) (he : IsExpr e) : IsStmt e
  | assignment (name : CName) (e : ParseTree) (he : IsExpr e) :
    IsStmt (.node .assignment [.node .lhs [nameNode .varName name],e])

/-- The variable stands in the tree, and neither as the left side of an assignment nor in a list
of parameters. -/
inductive UsesVar (v : Name) : ParseTree → Prop where
  | here : UsesVar v (.node .varName [.token v])
  | child {data : Rule} {children : List ParseTree} {t : ParseTree} (hlhs : data ≠ .lhs)
    (hparams : data ≠ .argList) (ht : t∈children) (h : UsesVar v t) :
    UsesVar v (.node data children)

/-- The variable is the left side of an assignment. -/
inductive Assigns (v : Name) : ParseTree → Prop where
  | here : Assigns v (.node .lhs [.node .varName [.token v]])
  | child {data : Rule} {children : List ParseTree} {t : ParseTree} (ht : t∈children)
    (h : Assigns v t) : Assigns v (.node data children)

inductive HasExport : ParseTree → Prop where
  | here (children : List ParseTree) : HasExport (.node .exportStatement children)
  | child {data : Rule} {children : List ParseTree} {t : ParseTree} (ht : t∈children)
    (h : HasExport t) : HasExport (.node data children)

/-- What the pass is to collect. -/
def Counts (countLhs : Bool) (v : Name) (t : ParseTree) : Prop :=
  UsesVar v t ∨ (countLhs=true ∧ Assigns v t)

section Occurrences

variable {v : Name} {data : Rule} {children : List ParseTree}

theorem usesVar_node : UsesVar v (.node data children) ↔
    (data=.varName ∧ children=[.token v]) ∨
      (data ≠ .lhs ∧ data ≠ .argList ∧ ∃t∈children,UsesVar v t) := by
  constructor
  · intro h
    cases h with
    | here => exact Or.inl ⟨rfl,rfl⟩
    | child hlhs hparams ht h => exact Or.inr ⟨hlhs,hparams,_,ht,h⟩
  · rintro (⟨rfl,rfl⟩ | ⟨hlhs,hparams,t,ht,h⟩)
    · exact .here
    · exact .child hlhs hparams ht h

theorem not_usesVar_token (text : Name) : ¬UsesVar v (.token text) := nofun

theorem assigns_node : Assigns v (.node data children) ↔
    (data=.lhs ∧ children=[.node .varName [.token v]]) ∨ ∃t∈children,Assigns v t := by
  constructor
  · intro h
    cases h with
    | here => exact Or.inl ⟨rfl,rfl⟩
    | child ht h => exact Or.inr ⟨_,ht,h⟩
  · rintro (⟨rfl,rfl⟩ | ⟨t,ht,h⟩)
    · exact .here
    · exact .child ht h

theorem not_assigns_token (text : Name) : ¬Assigns v (.token text) := nofun

theorem hasExport_node : HasExport (.node data children) ↔
    data=.exportStatement ∨ ∃t∈children,HasExport t := by
  constructor
  · intro h
    cases h with
    | here => exact Or.inl rfl
    | child ht h => exact Or.inr ⟨_,ht,h⟩
  · rintro (rfl | ⟨t,ht,h⟩)
    · exact .here _
    · exact .child ht h

theorem not_hasExport_token (text : Name) : ¬HasExport (.token text) := nofun

end Occurrences

namespace PyValue

/-- A list of names. -/
def names (ns : List Name) : PyValue := list (ns.map str)

theorem chain_names (nss : List (List Name)) :
    chainFromIterable (nss.map names)=.ok (nss.flatten.map str) := by
  induction nss with
  | nil => rfl
  | cons ns nss ih =>
    rw [List.map_cons,chainFromIterable,ih]
    simp [names,iterate]

theorem flattenLoop_names (ns : List Name) : flattenLoop (ns.map str)=.ok (ns.map str) := by
  rw [flattenLoop,if_pos]
  simp [isList]

theorem flatten_names (nss : List (List Name)) :
    flatten (nss.map names)=.ok (names nss.flatten) := by
  rw [flatten,chain_names,names]
  simp only [flattenLoop_names]
  rfl

/-- A tree cannot be flattened. -/
theorem chain_tree {vs : List PyValue} {data : Rule} {children : List PyValue}
    (h : tree data children∈vs) : ∃ e,chainFromIterable vs=.error e := by
  induction vs with
  | nil => cases h
  | cons v vs ih =>
    rw [chainFromIterable]
    obtain rfl | h := List.mem_cons.mp h
    · exact ⟨.typeError,rfl⟩
    · obtain ⟨e,he⟩ := ih h
      rw [he]
      cases v.iterate with
      | error e' => exact ⟨e',rfl⟩
      | ok xs => exact ⟨e,rfl⟩

end PyValue

/-- The handlers that flatten. -/
def Rule.isFlattened : Rule → Bool
  | .statements | .program | .functionDef | .conditional | .whileLoop | .functionCall
  | .elseClause | .expressionFunctionArgList | .returnStatement => true
  | _ => false

/-- The handlers that give the empty list. -/
def Rule.isSilent : Rule → Bool
  | .argList | .functionName | .number | .hexnumber | .string | .outsLiteral | .externStatement
  | .asmStatement => true
  | _ => false

/-- The pass makes a list of names of the tree. -/
def Gathers (countLhs : Bool) (t : ParseTree) (ns : List Name) : Prop :=
  transform countLhs t=.ok (.names ns)

/-- The pass collects what it is to collect. -/
def Collects (countLhs : Bool) (t : ParseTree) : Prop :=
  ∃ ns,Gathers countLhs t ns ∧ ∀ v,v∈ns ↔ Counts countLhs v t

/-- The pass stops with an error, or leaves the tree a tree. -/
def Fails (countLhs : Bool) (t : ParseTree) : Prop :=
  (∃ e,transform countLhs t=.error e) ∨ ∃ data children,
    transform countLhs t=.ok (.tree data children)

section Pass

variable {countLhs : Bool} {data : Rule} {t : ParseTree} {ts : List ParseTree}

theorem Collects.not_fails (h : Collects countLhs t) : ¬Fails countLhs t := by
  obtain ⟨ns,hns,-⟩ := h
  rintro (⟨e,he⟩ | ⟨data,children,htree⟩)
  · cases hns.symm.trans he
  · cases hns.symm.trans htree

theorem transformAll_collects (h : ∀t∈ts,Collects countLhs t) :
    ∃ nss : List (List Name),transformAll countLhs ts=.ok (nss.map PyValue.names) ∧
      ∀ v,v∈nss.flatten ↔ ∃t∈ts,Counts countLhs v t := by
  induction ts with
  | nil => exact ⟨[],rfl,by simp⟩
  | cons t ts ih =>
    obtain ⟨ns,hns,hmem⟩ := h t (by simp)
    obtain ⟨nss,hnss,hmems⟩ := ih fun t ht => h t (by simp [ht])
    refine ⟨ns::nss,?_,?_⟩
    · rw [Gathers] at hns
      rw [transformAll,hns,hnss]
      rfl
    · intro v
      rw [List.flatten_cons,List.mem_append,hmem,hmems]
      simp

theorem counts_flattened (hdata : data.isFlattened=true) (v : Name) :
    Counts countLhs v (.node data ts) ↔ ∃t∈ts,Counts countLhs v t := by
  have hvar : data ≠ .varName := by rintro rfl; cases hdata
  have hlhs : data ≠ .lhs := by rintro rfl; cases hdata
  have hparams : data ≠ .argList := by rintro rfl; cases hdata
  rw [Counts,usesVar_node,assigns_node]
  simp only [hvar,hlhs,hparams,false_and,false_or,ne_eq,not_false_eq_true,true_and,Counts]
  constructor
  · rintro (⟨t,ht,h⟩ | ⟨hcount,t,ht,h⟩)
    · exact ⟨t,ht,Or.inl h⟩
    · exact ⟨t,ht,Or.inr ⟨hcount,h⟩⟩
  · rintro ⟨t,ht,h | ⟨hcount,h⟩⟩
    · exact Or.inl ⟨t,ht,h⟩
    · exact Or.inr ⟨hcount,t,ht,h⟩

theorem callHandler_flattened (hdata : data.isFlattened=true) (values : List PyValue) :
    callHandler countLhs data values=PyValue.flatten values := by
  cases data <;> first | rfl | cases hdata

theorem gathers_flattened (hdata : data.isFlattened=true) {nss : List (List Name)}
    (h : transformAll countLhs ts=.ok (nss.map PyValue.names)) :
    Gathers countLhs (.node data ts) nss.flatten := by
  rw [Gathers,transform,h]
  simp only [callHandler_flattened hdata,PyValue.flatten_names]

/-- A node that is flattened: its children are collected together. -/
theorem collects_flattened (hdata : data.isFlattened=true) (h : ∀t∈ts,Collects countLhs t) :
    Collects countLhs (.node data ts) := by
  obtain ⟨nss,hnss,hmem⟩ := transformAll_collects h
  refine ⟨nss.flatten,gathers_flattened hdata hnss,?_⟩
  intro v
  rw [hmem,counts_flattened hdata]

theorem transformAll_fails (ht : t∈ts) (h : Fails countLhs t) :
    (∃ e,transformAll countLhs ts=.error e) ∨ ∃ vs data children,
      transformAll countLhs ts=.ok vs ∧ PyValue.tree data children∈vs := by
  induction ts with
  | nil => cases ht
  | cons first ts ih =>
    rw [transformAll]
    cases hfirst : transform countLhs first with
    | error e =>
      left
      cases transformAll countLhs ts <;> exact ⟨e,rfl⟩
    | ok v =>
      obtain rfl | ht := List.mem_cons.mp ht
      · obtain ⟨e,he⟩ | ⟨data,children,htree⟩ := h
        · cases hfirst.symm.trans he
        · obtain rfl := Except.ok.inj (hfirst.symm.trans htree)
          cases transformAll countLhs ts with
          | error e => exact Or.inl ⟨e,rfl⟩
          | ok vs => exact Or.inr ⟨_,data,children,rfl,by simp⟩
      · obtain ⟨e,he⟩ | ⟨vs,data,children,hvs,hmem⟩ := ih ht
        · rw [he]
          exact Or.inl ⟨e,rfl⟩
        · rw [hvs]
          exact Or.inr ⟨_,data,children,rfl,by simp [hmem]⟩

/-- A node that is flattened fails with any of its children. -/
theorem fails_flattened (hdata : data.isFlattened=true) (ht : t∈ts) (h : Fails countLhs t) :
    Fails countLhs (.node data ts) := by
  left
  rw [transform]
  obtain ⟨e,he⟩ | ⟨vs,data',children,hvs,hmem⟩ := transformAll_fails ht h
  · rw [he]
    exact ⟨e,rfl⟩
  · obtain ⟨e,he⟩ := PyValue.chain_tree hmem
    rw [hvs]
    simp only [callHandler_flattened hdata,PyValue.flatten,he]
    exact ⟨e,rfl⟩

/-- A node whose handler gives the empty list. -/
theorem gathers_silent (hdata : data.isSilent=true) {vs : List PyValue}
    (h : transformAll countLhs ts=.ok vs) : Gathers countLhs (.node data ts) [] := by
  rw [Gathers,transform,h]
  cases data <;> first | rfl | cases hdata

theorem collects_silent (hdata : data.isSilent=true) {vs : List PyValue}
    (hts : transformAll countLhs ts=.ok vs) (h : ∀ v,¬Counts countLhs v (.node data ts)) :
    Collects countLhs (.node data ts) :=
  ⟨[],gathers_silent hdata hts,fun v => by simp [h v]⟩

theorem collects_functionName (name : CName) :
    Collects countLhs (nameNode .functionName name) := by
  apply collects_silent rfl rfl
  intro v
  simp [Counts,usesVar_node,assigns_node,not_usesVar_token,not_assigns_token]

theorem gathers_varName (name : CName) : Gathers countLhs (nameNode .varName name) [name.1] := rfl

theorem counts_varName (name : CName) (v : Name) :
    Counts countLhs v (nameNode .varName name) ↔ v=name.1 := by
  simp [Counts,nameNode,usesVar_node,assigns_node,not_usesVar_token,not_assigns_token,eq_comm]

theorem transformAll_varNames (args : List CName) :
    transformAll countLhs (args.map (nameNode .varName))=
      .ok (args.map fun name => PyValue.names [name.1]) := by
  induction args with
  | nil => rfl
  | cons name args ih =>
    have hname : transform countLhs (nameNode .varName name)=.ok (.names [name.1]) :=
      gathers_varName name
    rw [List.map_cons,transformAll,hname,ih]
    rfl

theorem not_assigns_varName (name : CName) (v : Name) : ¬Assigns v (nameNode .varName name) := by
  simp [nameNode,assigns_node,not_assigns_token]

theorem not_counts_argList (args : List CName) (v : Name) :
    ¬Counts countLhs v (argListNode args) := by
  simp [Counts,argListNode,usesVar_node,assigns_node,not_assigns_varName]

theorem collects_argList (args : List CName) : Collects countLhs (argListNode args) :=
  collects_silent rfl (transformAll_varNames args) fun v => not_counts_argList args v

theorem collects_token (hdata : data.isSilent=true) (text : Name) :
    Collects countLhs (.node data [.token text]) := by
  apply collects_silent hdata rfl
  have hvar : data ≠ .varName := by rintro rfl; cases hdata
  intro v
  simp [Counts,usesVar_node,assigns_node,not_usesVar_token,not_assigns_token,hvar]

theorem gathers_binaryOperation {left right : ParseTree} {ls rs : List Name} (o : Op)
    (hleft : Gathers countLhs left ls) (hright : Gathers countLhs right rs) :
    Gathers countLhs (.node .binaryOperation [left,.node (.op o) [],right]) (rs++ls) := by
  have hop : transform countLhs (.node (.op o) [])=.ok (.tree (.op o) []) := rfl
  rw [Gathers] at hleft hright
  rw [Gathers,transform,transformAll,transformAll,transformAll,hleft,hop,hright]
  simp [transformAll,callHandler,PyValue.extend,PyValue.names,PyValue.iterate,Except.map]

theorem IsExpr.collects (h : IsExpr t) : Collects countLhs t := by
  induction h with
  | functionCall name =>
    apply collects_flattened rfl
    simpa using collects_functionName name
  | functionCallArgs name args _ ih =>
    apply collects_flattened rfl
    simp only [List.forall_mem_cons,List.not_mem_nil,false_imp_iff,implies_true,and_true]
    exact ⟨collects_functionName name,collects_flattened rfl ih⟩
  | outsLiteral text => exact collects_token rfl text
  | binaryOperation left o right _ _ ihleft ihright =>
    obtain ⟨ls,hls,hleft⟩ := ihleft
    obtain ⟨rs,hrs,hright⟩ := ihright
    refine ⟨rs++ls,gathers_binaryOperation o hls hrs,?_⟩
    intro v
    rw [List.mem_append,hleft,hright,Counts,Counts,Counts,usesVar_node,assigns_node]
    simp [usesVar_node,assigns_node]
    tauto
  | varName name => exact ⟨[name.1],gathers_varName name,fun v => by
      rw [List.mem_singleton,counts_varName]⟩
  | string text => exact collects_token rfl text
  | number text => exact collects_token rfl text
  | hexnumber text => exact collects_token rfl text

theorem not_hasExport_name (name : CName) (data : Rule) (hdata : data ≠ .exportStatement) :
    ¬HasExport (nameNode data name) := by
  simp [nameNode,hasExport_node,hdata,not_hasExport_token]

theorem not_hasExport_argList (args : List CName) : ¬HasExport (argListNode args) := by
  simp [argListNode,hasExport_node,not_hasExport_name]

theorem IsExpr.not_hasExport (h : IsExpr t) : ¬HasExport t := by
  induction h with
  | functionCall name => simp [hasExport_node,not_hasExport_name]
  | functionCallArgs name args _ ih => simpa [hasExport_node,not_hasExport_name] using ih
  | outsLiteral text => simp [hasExport_node,not_hasExport_token]
  | binaryOperation left o right _ _ ihleft ihright => simp [hasExport_node,ihleft,ihright]
  | varName name => exact not_hasExport_name name _ (by simp)
  | string text => simp [hasExport_node,not_hasExport_token]
  | number text => simp [hasExport_node,not_hasExport_token]
  | hexnumber text => simp [hasExport_node,not_hasExport_token]

/-- The pass fails on the tree if it has an export statement, and else collects. -/
def Decided (countLhs : Bool) (t : ParseTree) : Prop :=
  (HasExport t → Fails countLhs t) ∧ (¬HasExport t → Collects countLhs t)

theorem Collects.decided (h : Collects countLhs t) (hexport : ¬HasExport t) :
    Decided countLhs t :=
  ⟨fun hhas => absurd hhas hexport,fun _ => h⟩

/-- A node that is flattened, from its children. -/
theorem decided_flattened (hdata : data.isFlattened=true) (h : ∀t∈ts,Decided countLhs t) :
    Decided countLhs (.node data ts) := by
  have hnode : data ≠ .exportStatement := by rintro rfl; cases hdata
  constructor
  · intro hhas
    obtain rfl | ⟨t,ht,hhas⟩ := hasExport_node.mp hhas
    · exact absurd rfl hnode
    · exact fails_flattened hdata ht ((h t ht).1 hhas)
  · intro hnone
    apply collects_flattened hdata
    intro t ht
    exact (h t ht).2 fun hhas => hnone (hasExport_node.mpr (Or.inr ⟨t,ht,hhas⟩))

theorem IsExpr.decided (h : IsExpr t) : Decided countLhs t := h.collects.decided h.not_hasExport

theorem decided_functionName (name : CName) : Decided countLhs (nameNode .functionName name) :=
  (collects_functionName name).decided (not_hasExport_name name _ (by simp))

theorem gathers_assignment (lhs : CName) {ns : List Name} (h : Gathers countLhs t ns) :
    Gathers countLhs (.node .assignment [.node .lhs [nameNode .varName lhs],t])
      ((if countLhs then [lhs.1] else [])++ns) := by
  have hlhs : transform countLhs (.node .lhs [nameNode .varName lhs])=
      .ok (.names (if countLhs then [lhs.1] else [])) := by
    cases countLhs <;> rfl
  rw [Gathers] at h
  rw [Gathers,transform,transformAll,transformAll,hlhs,h]
  simp [transformAll,callHandler,PyValue.extend,PyValue.names,PyValue.iterate,Except.map]

theorem decided_assignment (name : CName) (he : IsExpr t) :
    Decided countLhs (.node .assignment [.node .lhs [nameNode .varName name],t]) := by
  have hexport : ¬HasExport (.node .assignment [.node .lhs [nameNode .varName name],t]) := by
    simp [hasExport_node,not_hasExport_name,he.not_hasExport]
  refine Collects.decided ?_ hexport
  have hcollects : Collects countLhs t := he.collects
  obtain ⟨ns,hns,hmem⟩ := hcollects
  refine ⟨(if countLhs then [name.1] else [])++ns,gathers_assignment name hns,?_⟩
  intro v
  have hassigns : Assigns v (.node .lhs [nameNode .varName name]) ↔ v=name.1 := by
    have hnot := not_assigns_varName name v
    rw [nameNode] at hnot ⊢
    rw [assigns_node]
    simp [hnot,eq_comm]
  have huses : ¬UsesVar v (.node .lhs [nameNode .varName name]) := by
    simp [usesVar_node]
  rw [List.mem_append,hmem,Counts,Counts,usesVar_node,assigns_node]
  cases countLhs <;> simp [hassigns,huses]
  tauto

theorem IsStmt.decided (h : IsStmt t) : Decided countLhs t := by
  induction h with
  | functionDef name body _ ih =>
    apply decided_flattened rfl
    simp only [List.forall_mem_cons,List.not_mem_nil,false_imp_iff,implies_true,and_true]
    exact ⟨decided_functionName name,decided_flattened rfl ih⟩
  | functionDefArgs name args body _ ih =>
    apply decided_flattened rfl
    simp only [List.forall_mem_cons,List.not_mem_nil,false_imp_iff,implies_true,and_true]
    exact ⟨decided_functionName name,
      (collects_argList args).decided (not_hasExport_argList args),decided_flattened rfl ih⟩
  | conditional condition body hcondition _ ih =>
    apply decided_flattened rfl
    simp only [List.forall_mem_cons,List.not_mem_nil,false_imp_iff,implies_true,and_true]
    exact ⟨hcondition.decided,decided_flattened rfl ih⟩
  | conditionalElse condition body elseBody hcondition _ _ ih ihelse =>
    apply decided_flattened rfl
    simp only [List.forall_mem_cons,List.not_mem_nil,false_imp_iff,implies_true,and_true]
    refine ⟨hcondition.decided,decided_flattened rfl ih,decided_flattened rfl ?_⟩
    simpa using decided_flattened rfl ihelse
  | whileLoop condition body hcondition _ ih =>
    apply decided_flattened rfl
    simp only [List.forall_mem_cons,List.not_mem_nil,false_imp_iff,implies_true,and_true]
    exact ⟨hcondition.decided,decided_flattened rfl ih⟩
  | exportStatement name =>
    constructor
    · intro _
      right
      exact ⟨_,_,rfl⟩
    · intro hnone
      exact absurd (HasExport.here _) hnone
  | externStatement name =>
    refine Collects.decided ?_ (by simp [hasExport_node,not_hasExport_name])
    apply collects_silent rfl rfl
    intro v
    simp [Counts,nameNode,usesVar_node,assigns_node,not_usesVar_token,not_assigns_token]
  | externStatementArgs name args =>
    refine Collects.decided ?_ (by
      simp [hasExport_node,not_hasExport_name,not_hasExport_argList])
    have hchildren : transformAll countLhs [nameNode .functionName name,argListNode args]=
        .ok [.names [],.names []] := by
      have hname : transform countLhs (nameNode .functionName name)=.ok (.names []) := rfl
      have hargs : transform countLhs (argListNode args)=.ok (.names []) := by
        rw [argListNode,transform,transformAll_varNames]
        rfl
      rw [transformAll,transformAll,hname,hargs]
      rfl
    apply collects_silent rfl hchildren
    · intro v
      have hargs : ¬Counts countLhs v (argListNode args) := not_counts_argList args v
      rw [Counts,not_or] at hargs
      simp [Counts,usesVar_node,assigns_node,not_usesVar_token,not_assigns_token,nameNode,hargs]
  | returnStatement => exact decided_flattened rfl (by simp)
  | returnValue e he => exact decided_flattened rfl (by simpa using he.decided)
  | asmStatement text =>
    exact (collects_token rfl text).decided (by simp [hasExport_node,not_hasExport_token])
  | expression e he => exact he.decided
  | assignment name e he => exact decided_assignment name he

end Pass

/-- On the tree of a list of statements the pass comes to an end with exactly the variables that
occur, and with `count_lhs` also those that are assigned, when no export statement stands
anywhere in it; else it ends with an error. -/
theorem used_variables_iff (countLhs : Bool) (body : List ParseTree) (hbody : ∀s∈body,IsStmt s) :
    (∃ ns : List Name,transform countLhs (.node .statements body)=.ok (.list (ns.map .str)) ∧
      ∀ v,v∈ns ↔ UsesVar v (.node .statements body) ∨
        (countLhs=true ∧ Assigns v (.node .statements body))) ↔
      ¬HasExport (.node .statements body) := by
  have hdecided : Decided countLhs (.node .statements body) :=
    decided_flattened rfl fun s hs => (hbody s hs).decided
  constructor
  · intro hcollects hhas
    have h : Collects countLhs (.node .statements body) := hcollects
    exact h.not_fails (hdecided.1 hhas)
  · exact hdecided.2

private def xName : CName := ⟨['x'],rfl⟩

private def yName : CName := ⟨['y'],rfl⟩

/-- x = 10+y -/
private def sumTree : ParseTree :=
  .node .assignment [.node .lhs [nameNode .varName xName],.node .binaryOperation
    [.node .number [.token ['1','0']],.node (.op .add) [],nameNode .varName yName]]

theorem used_variables_sum :
    ∃ ns : List Name,transform true (.node .statements [sumTree])=.ok (.list (ns.map .str)) ∧
      ∀ v,v∈ns ↔ UsesVar v (.node .statements [sumTree]) ∨
        (true=true ∧ Assigns v (.node .statements [sumTree])) := by
  refine (used_variables_iff true [sumTree] ?_).mpr ?_
  · intro s hs
    rw [List.mem_singleton.mp hs]
    exact .assignment xName _ (.binaryOperation _ _ _ (.number _) (.varName yName))
  · simp [sumTree,nameNode,hasExport_node,not_hasExport_token]

/-- The pass fails on an export statement. -/
theorem used_variables_export :
    ¬∀ (countLhs : Bool) (body : List ParseTree),(∀s∈body,IsStmt s) →
      ∃ ns : List Name,transform countLhs (.node .statements body)=.ok (.list (ns.map .str)) ∧
        ∀ v,v∈ns ↔ UsesVar v (.node .statements body) ∨
          (countLhs=true ∧ Assigns v (.node .statements body)) := by
  intro h
  obtain ⟨ns,hns,-⟩ := h false [.node .exportStatement [nameNode .functionName xName]]
    (by simpa using IsStmt.exportStatement xName)
  cases hns

section Statements

variable (quote : Name → Name)

mutual

/-- The tree of an expression, where `quote` gives the text of a string literal in the source. -/
def Expr.parseTree : Expr → ParseTree
  | .functionCall name [] => .node .functionCall [nameNode .functionName name]
  | .functionCall name (arg::args) => .node .functionCall [nameNode .functionName name,
      .node .expressionFunctionArgList (arg.parseTree::Expr.parseTrees args)]
  | .outsLiteral text => .node .outsLiteral [.token (quote text)]
  | .binaryOperation left o right =>
    .node .binaryOperation [left.parseTree,.node (.op o) [],right.parseTree]
  | .varName name => nameNode .varName name
  | .string text => .node .string [.token (quote text)]
  | .number num => .node .number [.token num.1]
  | .hexnumber num => .node .hexnumber [.token num.1]

def Expr.parseTrees : List Expr → List ParseTree
  | [] => []
  | e::es => e.parseTree::Expr.parseTrees es

end

mutual

/-- The tree of a statement, without the parts that are empty. -/
def Stmt.parseTree : Stmt → ParseTree
  | .functionDef name [] body => .node .functionDef
      [nameNode .functionName name,.node .statements (Stmt.parseTrees body)]
  | .functionDef name (arg::args) body => .node .functionDef
      [nameNode .functionName name,argListNode (arg::args),
        .node .statements (Stmt.parseTrees body)]
  | .conditional condition body [] => .node .conditional
      [condition.parseTree quote,.node .statements (Stmt.parseTrees body)]
  | .conditional condition body (s::rest) => .node .conditional
      [condition.parseTree quote,.node .statements (Stmt.parseTrees body),
        .node .elseClause [.node .statements (s.parseTree::Stmt.parseTrees rest)]]
  | .whileLoop condition body => .node .whileLoop
      [condition.parseTree quote,.node .statements (Stmt.parseTrees body)]
  | .exportStatement name => .node .exportStatement [nameNode .functionName name]
  | .externStatement name [] => .node .externStatement [nameNode .functionName name]
  | .externStatement name (arg::args) => .node .externStatement
      [nameNode .functionName name,argListNode (arg::args)]
  | .returnStatement none => .node .returnStatement []
  | .returnStatement (some e) => .node .returnStatement [e.parseTree quote]
  | .asmStatement text => .node .asmStatement [.token (quote text)]
  | .expression e => e.parseTree quote
  | .assignment lhs e => .node .assignment [.node .lhs [nameNode .varName lhs],e.parseTree quote]

def Stmt.parseTrees : List Stmt → List ParseTree
  | [] => []
  | s::rest => s.parseTree::Stmt.parseTrees rest

end

variable {quote} {countLhs : Bool}

theorem gathers_functionName (name : CName) :
    Gathers countLhs (nameNode .functionName name) [] := rfl

theorem gathers_argList (args : List CName) : Gathers countLhs (argListNode args) [] :=
  gathers_silent rfl (transformAll_varNames args)

theorem transformAll_nil :
    transformAll countLhs []=.ok (List.map PyValue.names []) := rfl

theorem transformAll_cons {t : ParseTree} {ts : List ParseTree} {ns : List Name}
    {nss : List (List Name)} (h : Gathers countLhs t ns)
    (hs : transformAll countLhs ts=.ok (nss.map PyValue.names)) :
    transformAll countLhs (t::ts)=.ok ((ns::nss).map PyValue.names) := by
  rw [Gathers] at h
  rw [transformAll,h,hs]
  rfl

/-- A node that is flattened, of one, two or three children. -/
theorem gathers_one {data : Rule} (hdata : data.isFlattened=true) {t : ParseTree} {ns : List Name}
    (h : Gathers countLhs t ns) : Gathers countLhs (.node data [t]) ns := by
  have hnode := gathers_flattened hdata (transformAll_cons h transformAll_nil)
  simpa using hnode

theorem gathers_two {data : Rule} (hdata : data.isFlattened=true) {t t' : ParseTree}
    {ns ns' : List Name} (h : Gathers countLhs t ns) (h' : Gathers countLhs t' ns') :
    Gathers countLhs (.node data [t,t']) (ns++ns') := by
  have hlast := transformAll_cons h' transformAll_nil
  have hnode := gathers_flattened hdata (transformAll_cons h hlast)
  simpa using hnode

theorem gathers_three {data : Rule} (hdata : data.isFlattened=true) {t t' t'' : ParseTree}
    {ns ns' ns'' : List Name} (h : Gathers countLhs t ns) (h' : Gathers countLhs t' ns')
    (h'' : Gathers countLhs t'' ns'') :
    Gathers countLhs (.node data [t,t',t'']) (ns++ns'++ns'') := by
  have hlast := transformAll_cons h'' transformAll_nil
  have hnode := gathers_flattened hdata (transformAll_cons h (transformAll_cons h' hlast))
  simpa using hnode

mutual

theorem Expr.gathers_parseTree : ∀ e : Expr,
    Gathers countLhs (e.parseTree quote) (e.usedVariables.map Subtype.val)
  | .functionCall name [] => gathers_one rfl (gathers_functionName name)
  | .functionCall name (arg::args) => by
    obtain ⟨nss,hnss,hused⟩ := Expr.transformAll_parseTrees args
    have hlist : Gathers countLhs
        (.node .expressionFunctionArgList (arg.parseTree quote::Expr.parseTrees quote args))
        (arg.usedVariables.map Subtype.val++nss.flatten) :=
      gathers_flattened rfl (transformAll_cons arg.gathers_parseTree hnss)
    have hcall : Gathers countLhs (Expr.parseTree quote (.functionCall name (arg::args))) _ :=
      gathers_two rfl (gathers_functionName name) hlist
    rw [hused,List.nil_append,← List.map_append] at hcall
    exact hcall
  | .outsLiteral text => rfl
  | .binaryOperation left o right => by
    have hboth : Gathers countLhs (Expr.parseTree quote (.binaryOperation left o right)) _ :=
      gathers_binaryOperation o left.gathers_parseTree right.gathers_parseTree
    rw [← List.map_append] at hboth
    exact hboth
  | .varName name => rfl
  | .string text => rfl
  | .number num => rfl
  | .hexnumber num => rfl

theorem Expr.transformAll_parseTrees : ∀ es : List Expr,∃ nss : List (List Name),
    transformAll countLhs (Expr.parseTrees quote es)=.ok (nss.map PyValue.names) ∧
      nss.flatten=(Expr.usedArgs es).map Subtype.val
  | [] => ⟨[],rfl,rfl⟩
  | e::es => by
    obtain ⟨nss,hnss,hused⟩ := Expr.transformAll_parseTrees es
    refine ⟨e.usedVariables.map Subtype.val::nss,transformAll_cons e.gathers_parseTree hnss,?_⟩
    rw [List.flatten_cons,hused,Expr.usedArgs,List.map_append]

end

mutual

/-- Where the pass of the compiler has a result, the pass over the tree makes the same list. -/
theorem Stmt.gathers_parseTree : ∀ (s : Stmt) (used : List CName),
    s.usedVariables countLhs=some used →
      Gathers countLhs (s.parseTree quote) (used.map Subtype.val)
  | .functionDef name [] body,used,h =>
    gathers_two rfl (gathers_functionName name) (Stmt.gathers_parseTrees body used h)
  | .functionDef name (arg::args) body,used,h =>
    gathers_three rfl (gathers_functionName name) (gathers_argList (arg::args))
      (Stmt.gathers_parseTrees body used h)
  | .conditional condition body elseBody,used,h => by
    rw [Stmt.usedVariables] at h
    split at h
    · rename_i inBody inElse hinBody hinElse
      obtain rfl := Option.some.inj h
      have hcondition : Gathers countLhs (condition.parseTree quote) _ := condition.gathers_parseTree
      have hbody := Stmt.gathers_parseTrees body inBody hinBody
      rw [List.map_append,List.map_append]
      cases elseBody with
      | nil =>
        obtain rfl := Option.some.inj hinElse
        rw [List.map_nil,List.append_nil]
        exact gathers_two rfl hcondition hbody
      | cons s rest =>
        have helse := Stmt.gathers_parseTrees (s::rest) inElse hinElse
        exact gathers_three rfl hcondition hbody (gathers_one rfl helse)
    · cases h
  | .whileLoop condition body,used,h => by
    rw [Stmt.usedVariables] at h
    split at h
    · rename_i inBody hinBody
      obtain rfl := Option.some.inj h
      rw [List.map_append]
      exact gathers_two rfl condition.gathers_parseTree (Stmt.gathers_parseTrees body inBody hinBody)
    · cases h
  | .exportStatement name,used,h => by cases h
  | .externStatement name [],used,h => by
    cases h
    rfl
  | .externStatement name (arg::args),used,h => by
    cases h
    exact gathers_silent rfl (transformAll_cons (gathers_functionName name)
      (transformAll_cons (gathers_argList (arg::args)) transformAll_nil))
  | .returnStatement none,used,h => by
    cases h
    exact gathers_flattened rfl transformAll_nil
  | .returnStatement (some e),used,h => by
    cases h
    exact gathers_one rfl e.gathers_parseTree
  | .asmStatement text,used,h => by
    cases h
    rfl
  | .expression e,used,h => by
    cases h
    exact e.gathers_parseTree
  | .assignment lhs e,used,h => by
    obtain rfl := Option.some.inj h
    have he : Gathers countLhs (e.parseTree quote) _ := e.gathers_parseTree
    have hassign := gathers_assignment lhs he
    rw [List.map_append]
    cases countLhs <;> exact hassign

theorem Stmt.gathers_parseTrees : ∀ (body : List Stmt) (used : List CName),
    Stmt.usedInAll countLhs body=some used →
      Gathers countLhs (.node .statements (Stmt.parseTrees quote body)) (used.map Subtype.val)
  | body,used,h => by
    obtain ⟨nss,hnss,hused⟩ := Stmt.transformAll_parseTrees body used h
    rw [← hused]
    exact gathers_flattened rfl hnss

theorem Stmt.transformAll_parseTrees : ∀ (body : List Stmt) (used : List CName),
    Stmt.usedInAll countLhs body=some used → ∃ nss : List (List Name),
      transformAll countLhs (Stmt.parseTrees quote body)=.ok (nss.map PyValue.names) ∧
        nss.flatten=used.map Subtype.val
  | [],used,h => by
    cases h
    exact ⟨[],rfl,rfl⟩
  | s::rest,used,h => by
    rw [Stmt.usedInAll] at h
    split at h
    · rename_i first more hfirst hmore
      obtain rfl := Option.some.inj h
      obtain ⟨nss,hnss,hused⟩ := Stmt.transformAll_parseTrees rest more hmore
      refine ⟨first.map Subtype.val::nss,
        transformAll_cons (s.gathers_parseTree first hfirst) hnss,?_⟩
      rw [List.flatten_cons,hused,List.map_append]
    · cases h

end

end Statements

end Manchester.Compiler
