import Scriptlet.Proofs.Tree

namespace Scriptlet

/-!
# What the resolution walk keeps

* `Walk.owners` — for each scope around a node, the token that declared each of its names.
* `Walk.depth?_eq` — the distance of a name is told by the owners.
* `Walk.OnlyScopes` — the frame of the operations on scopes.
* `Walk.Passed` — what the walk over a part of a program comes down to, few as its operations are;
  `Walk.passed_stmt` and its kin — so it is over every part.
* `Walk.Passed.exists_notes` — what is recorded on the way, entry by entry.
* `Walk.owners_stmt` and its kin — only declarations change the owners.
* `Walk.depths_stmt` and its kin — depths are recorded only for the nodes that are passed.
* `Walk.context_stmt` and its kin — the walk comes back to the body and the class that it was in.
-/

/-! ### Who declared a name -/

/-- For each scope, from the innermost out, the token that declared a name in it. -/
abbrev Owners := List (String → Option Token)

/-- A name is declared in the innermost scope. -/
def Owners.declare : Owners → Token → Owners
  | [], _ => []
  | scope :: outer, name => (fun x => if x = name.lexeme then some name else scope x) :: outer

/-- Of several names, the last one of each spelling counts. -/
theorem Owners.foldl_declare_eq (names : List Token) (owner : String → Option Token)
    (outer : Owners) :
    names.foldl Owners.declare (owner :: outer) =
      (fun x => (names.filter (·.lexeme = x)).getLast?.or (owner x)) :: outer := by
  induction names generalizing owner with
  | nil => rfl
  | cons name names ih =>
    rw [List.foldl_cons, Owners.declare, ih]
    refine congrArg (· :: outer) (funext fun x => ?_)
    by_cases hx : name.lexeme = x
    · have hfilter : (name :: names).filter (·.lexeme = x) = name :: names.filter (·.lexeme = x) :=
        List.filter_cons_of_pos (decide_eq_true hx)
      rw [hfilter, List.getLast?_cons, if_pos hx.symm]
      cases (names.filter (·.lexeme = x)).getLast? <;> rfl
    · rw [List.filter_cons_of_neg (by simpa using hx), if_neg (Ne.symm hx)]

/-- Only the innermost scope changes, however many names are declared. -/
theorem Owners.tail_foldl_declare (scope : String → Option Token) (outer : Owners)
    (names : List Token) : (names.foldl Owners.declare (scope :: outer)).tail = outer := by
  rw [Owners.foldl_declare_eq, List.tail_cons]

/-- `Owners.declare` opens no scope and closes none. -/
@[simp]
theorem Owners.length_declare (owners : Owners) (name : Token) :
    (owners.declare name).length = owners.length := by
  cases owners <;> rfl

/-- `Owners.length_declare` for several names. -/
@[simp]
theorem Owners.length_foldl_declare (owners : Owners) (names : List Token) :
    (names.foldl Owners.declare owners).length = owners.length := by
  induction names generalizing owners with
  | nil => rfl
  | cons name names ih => rw [List.foldl_cons, ih, Owners.length_declare]

/-- Every name belongs to a token that is spelled like it. -/
def Owners.Named (owners : Owners) : Prop :=
  ∀ scope ∈ owners, ∀ x token, scope x = some token → token.lexeme = x

/-- `Owners.Named` with one more scope, as in `Walk.openScope`. -/
theorem Owners.Named.cons {owners : Owners} (h : owners.Named) {scope : String → Option Token}
    (hs : ∀ x token, scope x = some token → token.lexeme = x) : Owners.Named (scope :: owners) :=
  List.forall_mem_cons.2 ⟨hs, h⟩

/-- `Owners.declare` puts a token under its own lexeme. -/
theorem Owners.Named.declare {owners : Owners} (h : owners.Named) (name : Token) :
    (owners.declare name).Named := by
  cases owners with
  | nil => exact h
  | cons scope outer =>
    refine List.forall_mem_cons.2 ⟨?_, fun scope hs => h scope (List.mem_cons_of_mem _ hs)⟩
    intro x token hx
    simp only at hx
    split at hx
    · next heq =>
      cases hx
      exact heq.symm
    · exact h scope List.mem_cons_self x token hx

/-- `Owners.Named` behind several declarations, such as those of parameters. -/
theorem Owners.Named.foldl_declare {owners : Owners} (h : owners.Named) (names : List Token) :
    (names.foldl Owners.declare owners).Named := by
  induction names generalizing owners with
  | nil => exact h
  | cons name names ih => exact ih (h.declare name)

namespace Walk

/-- The tokens that declared the names of the open scopes. -/
def owners (w : Walk) : Owners := w.scopes.map fun scope x => scope[x]?.map Binding.token

/-- `refer` records a depth and leaves the scopes alone. -/
@[simp]
theorem owners_refer (w : Walk) (id : NodeId) (t : Token) : (w.refer id t).owners = w.owners := by
  unfold refer
  split <;> rfl

/-- A new scope, with the owners of the names that it starts with. -/
theorem owners_openScope (w : Walk) (scope : LocalScope) :
    (w.openScope scope).owners = (fun x => scope[x]?.map Binding.token) :: w.owners := rfl

/-- A change of a binding that keeps its token keeps the owner. -/
theorem map_token_modify (scope : LocalScope) (name x : String) (f : Binding → Binding)
    (hf : ∀ b, (f b).token = b.token) :
    (scope.modify name f)[x]?.map Binding.token = scope[x]?.map Binding.token := by
  rw [Std.TreeMap.getElem?_modify]
  split
  · next h =>
    have hx : name = x := Std.LawfulEqCmp.eq_of_compare h
    subst hx
    cases scope[name]? <;> simp [hf]
  · rfl

/-- `define` changes how a name was used, not who declared it. -/
@[simp]
theorem owners_define (w : Walk) (name : Token) : (w.define name).owners = w.owners := by
  unfold define
  split
  · rfl
  · next scope outer h =>
    unfold owners
    rw [h, List.map_cons, List.map_cons]
    congr 1
    funext x
    refine map_token_modify scope name.lexeme x _ fun b => ?_
    unfold Binding.define
    split <;> rfl

/-- `Walk.declare` in terms of the owners is `Owners.declare`. -/
theorem owners_declare (w : Walk) (name : Token) :
    (w.declare name).owners = w.owners.declare name := by
  unfold declare
  split
  · next h => unfold owners; rw [h]; rfl
  · next scope outer h =>
    unfold owners
    simp only [h, List.map_cons, Owners.declare]
    congr 1
    funext x
    rw [Std.TreeMap.getElem?_insert]
    by_cases hx : x = name.lexeme
    · simp [hx]
    · simp [hx, Ne.symm hx]

/-- `introduce` declares as `declare` does. -/
@[simp]
theorem owners_introduce (w : Walk) (name : Token) :
    (w.introduce name).owners = w.owners.declare name := by
  unfold introduce
  rw [owners_define, owners_declare]

/-- `markRead` changes how a name was used, not who declared it. -/
@[simp]
theorem owners_markRead (w : Walk) (name : Token) : (w.markRead name).owners = w.owners := by
  unfold markRead
  split
  · rfl
  · next d h =>
    unfold owners
    apply List.ext_getElem?
    intro i
    simp only [List.getElem?_map, List.getElem?_modify]
    -- Only the scope at the distance of the name is touched, and in it only a mark.
    by_cases hi : d = i
    · subst hi
      cases w.scopes[d]? with
      | none => rfl
      | some scope =>
        simp only [Option.map_eq_map, Option.map_some, if_true]
        congr 1
        funext x
        exact map_token_modify scope name.lexeme x _ fun _ => rfl
    · cases w.scopes[i]? <;> simp [hi]

/-- Complaints about bindings change the report and nothing else. -/
theorem foldl_complain_eq (bs : List Binding) (f : Binding → ScopeFault) (w : Walk) :
    ∃ report, bs.foldl (fun w b => w.complain b.token (f b)) w = { w with report } := by
  induction bs generalizing w with
  | nil => exact ⟨w.report, rfl⟩
  | cons b bs ih => exact ih (w.complain b.token (f b))

/-- `closeScope` drops the innermost scope, and may report names that were not read in it. -/
theorem closeScope_eq (w : Walk) :
    ∃ report, w.closeScope = { w with scopes := w.scopes.tail, report } := by
  obtain ⟨scopes, body, inClass, depths, notes, report⟩ := w
  cases scopes with
  | nil => exact ⟨report, rfl⟩
  | cons scope outer => exact foldl_complain_eq _ _ _

/-- `closeScope` drops the innermost scope. -/
theorem scopes_closeScope (w : Walk) : w.closeScope.scopes = w.scopes.tail := by
  obtain ⟨report, h⟩ := closeScope_eq w
  rw [h]

/-- The owners of the innermost scope are gone. -/
@[simp]
theorem owners_closeScope (w : Walk) : w.closeScope.owners = w.owners.tail := by
  unfold owners
  rw [scopes_closeScope, List.map_tail]

/-- The distance of a name is told by the owners alone. -/
theorem depth?_eq (w : Walk) (x : String) :
    w.depth? x = w.owners.findIdx? fun scope => (scope x).isSome := by
  unfold depth? owners
  rw [List.findIdx?_map]
  congr 1
  funext scope
  simp [Std.TreeMap.isSome_getElem?_eq_contains]

/-! ### What operations on scopes leave alone -/

/-- The kind of body that the walk is in, and whether it is in a class. -/
def context (w : Walk) : Body × Bool := (w.body, w.inClass)

/-- Only scopes and reports differ: the frame of `declare`, `define`, `markRead` and
    `closeScope`. -/
def OnlyScopes (w w' : Walk) : Prop := ∃ scopes report, w' = { w with scopes, report }

namespace OnlyScopes

variable {w w' w'' : Walk}

/-- Operations on scopes, one after another. -/
theorem trans (h : OnlyScopes w w') (h' : OnlyScopes w' w'') : OnlyScopes w w'' := by
  obtain ⟨_, _, rfl⟩ := h
  exact h'

/-- The table of `Walk.refer` is not written. -/
theorem depths (h : OnlyScopes w w') : w'.depths = w.depths := by
  obtain ⟨_, _, rfl⟩ := h
  rfl

/-- The list that `Walk.refer` writes beside the table is not written, either. -/
theorem notes (h : OnlyScopes w w') : w'.notes = w.notes := by
  obtain ⟨_, _, rfl⟩ := h
  rfl

/-- The walk stays in its body and its class. -/
theorem context (h : OnlyScopes w w') : w'.context = w.context := by
  obtain ⟨_, _, rfl⟩ := h
  rfl

end OnlyScopes

/-- `declare` changes the innermost scope, and may report the name. -/
theorem onlyScopes_declare (w : Walk) (name : Token) : OnlyScopes w (w.declare name) := by
  unfold declare
  split
  · exact ⟨_, _, rfl⟩
  · simp only
    split <;> exact ⟨_, _, rfl⟩

/-- `define` changes the innermost scope. -/
theorem onlyScopes_define (w : Walk) (name : Token) : OnlyScopes w (w.define name) := by
  unfold define
  split <;> exact ⟨_, _, rfl⟩

/-- `introduce` is `declare` and `define`. -/
theorem onlyScopes_introduce (w : Walk) (name : Token) : OnlyScopes w (w.introduce name) :=
  (onlyScopes_declare w name).trans (onlyScopes_define _ name)

/-- `markRead` changes the scope that holds the name. -/
theorem onlyScopes_markRead (w : Walk) (name : Token) : OnlyScopes w (w.markRead name) := by
  unfold markRead
  split <;> exact ⟨_, _, rfl⟩

/-- `closeScope` drops a scope, and may report its names. -/
theorem onlyScopes_closeScope (w : Walk) : OnlyScopes w w.closeScope := by
  obtain ⟨report, h⟩ := closeScope_eq w
  exact ⟨_, report, h⟩

/-! ### Recorded depths -/

/-- A reference is recorded for its own node, with the distance of its name. -/
theorem depths_refer (w : Walk) (id : NodeId) (name : Token) (i : NodeId) :
    (w.refer id name).depths[i]? =
      if i = id then (w.depth? name.lexeme).or w.depths[i]? else w.depths[i]? := by
  unfold refer
  split
  · next h => simp [h]
  · next d h =>
    rw [Std.TreeMap.getElem?_insert, h]
    by_cases hi : i = id
    · simp [hi]
    · simp [hi, Ne.symm hi]

/-- A variable is recorded as a reference is; that it was read makes no difference. -/
theorem depths_read (w : Walk) (id : NodeId) (name : Token) (i : NodeId) :
    (w.read id name).depths[i]? =
      if i = id then (w.depth? name.lexeme).or w.depths[i]? else w.depths[i]? := by
  unfold read
  rw [(onlyScopes_markRead _ name).depths, depths_refer]

/-- A reference is recorded in the body and the class that it stands in. -/
@[simp]
theorem context_refer (w : Walk) (id : NodeId) (name : Token) :
    (w.refer id name).context = w.context := by
  unfold refer
  split <;> rfl

/-! ### What the walk comes down to -/

/-- The walk in front of the body of a function. -/
def enterFunction (kind : Body) (decl : FunDecl) (w : Walk) : Walk :=
  decl.params.foldl introduce ({ w with body := kind }.openScope ∅)

/-- The walk in front of the methods of a class. -/
def enterClass (name : Token) (w : Walk) : Walk :=
  ({ w with inClass := true }.introduce name).openScope (thisScope name.line)

/-- The walk in front of a function that is declared under its name. -/
def nameFunction (decl : FunDecl) (w : Walk) : Walk :=
  match decl.name? with
  | some name => w.introduce name
  | none => w

/-- In front of a class, `enterClass` may introduce its name before or after it enters the class. -/
theorem introduce_inClass (w : Walk) (inClass : Bool) (name : Token) :
    { w with inClass }.introduce name = { w.introduce name with inClass } := by
  obtain ⟨scopes, body, _, depths, notes, report⟩ := w
  cases scopes with
  | nil => rfl
  | cons scope outer =>
    unfold introduce declare
    simp only
    split <;> rfl

end Walk

/-- Entries are written into a table, one after the other. -/
def Depths.record (depths : Depths) (notes : List Note) : Depths :=
  notes.foldl (fun depths note => depths.insert note.1 note.2) depths

/-- Entries of one part of a program behind those of another. -/
theorem Depths.record_append (depths : Depths) (notes notes' : List Note) :
    depths.record (notes ++ notes') = (depths.record notes).record notes' :=
  List.foldl_append

/-- Entries for other nodes are not touched. -/
theorem Depths.getElem?_record_of_notMem {depths : Depths} {notes : List Note} {i : NodeId}
    (hi : i ∉ notes.map Prod.fst) : (depths.record notes)[i]? = depths[i]? := by
  induction notes generalizing depths with
  | nil => rfl
  | cons note notes ih =>
    obtain ⟨hne, hi⟩ := List.ne_and_not_mem_of_not_mem_cons hi
    calc (depths.record (note :: notes))[i]? = (depths.insert note.1 note.2)[i]? := ih hi
      _ = depths[i]? := by simp [Std.TreeMap.getElem?_insert, Ne.symm hne]

namespace Walk

/-- What the walk does from `w` to `w'`, where `ids` are passed and `names` are declared in the
    innermost scope. -/
inductive Passed : List NodeId → List Token → Walk → Walk → Prop
  | refl {w} : Passed [] [] w w
  | trans {ids ids' names names' w w' w''} (h : Passed ids names w w')
      (h' : Passed ids' names' w' w'') : Passed (ids ++ ids') (names ++ names') w w''
  | complain {w t f} : Passed [] [] w (w.complain t f)
  | skip {w id} : Passed [id] [] w w
  | refer {w id name} : Passed [id] [] w (w.refer id name)
  | markRead {w name} : Passed [] [] w (w.markRead name)
  | declare {ids name w w'} (h : Passed ids [] (w.declare name) w') :
      Passed ids [name] w (w'.define name)
  | scope {ids names w w' scope body inClass}
      (h : Passed ids names (openScope { w with body, inClass } scope) w') :
      Passed ids [] w { w'.closeScope with body := w.body, inClass := w.inClass }

namespace Passed

variable {ids : List NodeId} {names : List Token} {w w' : Walk}

/-- **What the walk records.** It adds entries to `Walk.notes`, at most one for each node that it
    passes, and writes these into `Walk.depths`, in order, and nothing else. -/
theorem exists_notes (h : Passed ids names w w') :
    ∃ notes, w'.notes.toList = w.notes.toList ++ notes ∧ (notes.map Prod.fst).Sublist ids ∧
      w'.depths = w.depths.record notes := by
  induction h with
  | refl | complain | skip => exact ⟨[], (List.append_nil _).symm, List.nil_sublist _, rfl⟩
  | trans _ _ ih ih' =>
    obtain ⟨notes, hnotes, hsub, hdepths⟩ := ih
    obtain ⟨notes', hnotes', hsub', hdepths'⟩ := ih'
    refine ⟨notes ++ notes', ?_, ?_, ?_⟩
    · rw [hnotes', hnotes, List.append_assoc]
    · rw [List.map_append]
      exact hsub.append hsub'
    · rw [hdepths', hdepths, Depths.record_append]
  | @refer w id name =>
    unfold Walk.refer
    cases w.depth? name.lexeme with
    | none => exact ⟨[], (List.append_nil _).symm, List.nil_sublist _, rfl⟩
    | some d => exact ⟨[(id, d)], Array.toList_push, List.Sublist.refl _, rfl⟩
  | @markRead w name =>
    refine ⟨[], ?_, List.nil_sublist _, (onlyScopes_markRead w name).depths⟩
    rw [(onlyScopes_markRead w name).notes, List.append_nil]
  | declare _ ih =>
    obtain ⟨notes, hnotes, hsub, hdepths⟩ := ih
    refine ⟨notes, ?_, hsub, ?_⟩
    · rw [(onlyScopes_define _ _).notes, hnotes, (onlyScopes_declare _ _).notes]
    · rw [(onlyScopes_define _ _).depths, hdepths, (onlyScopes_declare _ _).depths]
  | @scope _ _ w w' _ _ _ _ ih =>
    obtain ⟨notes, hnotes, hsub, hdepths⟩ := ih
    refine ⟨notes, ?_, hsub, ?_⟩
    · show w'.closeScope.notes.toList = _
      rw [(onlyScopes_closeScope w').notes, hnotes]
      rfl
    · show w'.closeScope.depths = _
      rw [(onlyScopes_closeScope w').depths, hdepths]
      rfl

/-- Depths are recorded only for the nodes that are passed. -/
theorem depths_of_notMem (h : Passed ids names w w') {i : NodeId} (hi : i ∉ ids) :
    w'.depths[i]? = w.depths[i]? := by
  obtain ⟨notes, -, hsub, hdepths⟩ := h.exists_notes
  rw [hdepths]
  exact Depths.getElem?_record_of_notMem fun hmem => hi (hsub.subset hmem)

/-- Names are declared in the innermost scope, and nothing else is done to the owners. -/
theorem owners_eq (h : Passed ids names w w') :
    w'.owners = names.foldl Owners.declare w.owners := by
  induction h with
  | refl | complain | skip => rfl
  | trans _ _ ih ih' => rw [ih', ih, List.foldl_append]
  | refer => exact owners_refer _ _ _
  | markRead => exact owners_markRead _ _
  | declare _ ih =>
    rw [owners_define, ih, owners_declare]
    rfl
  | @scope _ _ w w' _ _ _ _ ih =>
    show w'.closeScope.owners = _
    rw [owners_closeScope, ih, owners_openScope, Owners.tail_foldl_declare]
    rfl

/-- The walk comes back to the body and the class that it was in. -/
theorem context_eq (h : Passed ids names w w') : w'.context = w.context := by
  induction h with
  | refl | complain | skip | scope => rfl
  | trans _ _ ih ih' => exact ih'.trans ih
  | refer => exact context_refer _ _ _
  | markRead => exact (onlyScopes_markRead _ _).context
  | declare _ ih => rw [(onlyScopes_define _ _).context, ih, (onlyScopes_declare _ _).context]

/-- A scope is left, together with the body or the class that it belongs to. -/
theorem leave {w₁ w'' : Walk} {scope : LocalScope} {body : Body} {inClass : Bool}
    (h : Passed ids names w₁ w') (hin : w₁ = openScope { w with body, inClass } scope)
    (hout : w'' = { w'.closeScope with body := w''.body, inClass := w''.inClass })
    (hbody : w''.body = w.body) (hclass : w''.inClass = w.inClass) :
    Passed ids [] w w'' := by
  subst hin
  rw [hout, hbody, hclass]
  exact .scope h

/-- Behind the scope, the body and the class are those in front of it, unless they are put back. -/
theorem context_leave {w₁ : Walk} (h : Passed ids names w₁ w') :
    w'.closeScope.body = w₁.body ∧ w'.closeScope.inClass = w₁.inClass :=
  Prod.mk.inj ((onlyScopes_closeScope w').context.trans h.context_eq)

end Passed

/-- A node that reads a name is passed, whether its name is found or not. -/
theorem passed_read (w : Walk) (id : NodeId) (name : Token) :
    Passed [id] [] w (w.read id name) :=
  (.refer : Passed [id] [] w (w.refer id name)).trans .markRead

/-- Between the declaration of an introduced name and its use there is nothing to pass. -/
theorem passed_introduce (w : Walk) (name : Token) : Passed [] [name] w (w.introduce name) :=
  .declare .refl

/-- The parameters of a function. -/
theorem passed_foldl_introduce (names : List Token) (w : Walk) :
    Passed [] names w (names.foldl introduce w) := by
  induction names generalizing w with
  | nil => exact .refl
  | cons name names ih => exact (passed_introduce w name).trans (ih _)

/-- A `return` is complained about, at most. -/
theorem passed_checkReturn (w : Walk) (t : Token) (b : Bool) :
    Passed [] [] w (w.checkReturn t b) := by
  unfold checkReturn
  simp only
  split <;> split
  · exact .trans .complain .complain
  · exact .complain
  · exact .complain
  · exact .refl

/-- The name of a function, if it has one. -/
theorem passed_nameFunction (decl : FunDecl) (w : Walk) :
    Passed [] decl.name?.toList w (w.nameFunction decl) := by
  unfold nameFunction
  cases decl.name? with
  | none => exact .refl
  | some name => exact passed_introduce w name

mutual

/-- What the walk over an expression comes down to. -/
theorem passed_expr : ∀ (e : Expr) (w : Walk), Passed e.ids [] w (expr e w)
  | .literal _, _ => .refl
  | .group inner, w => passed_expr inner w
  | .variable id name, w => by
    rw [expr]
    split
    · exact .trans .complain (passed_read (w.complain name _) id name)
    · exact passed_read w id name
  | .thisRef id keyword, w => by
    rw [expr]
    split
    · exact passed_read w id keyword
    · exact .trans .complain .skip
  | .assign id name value, w => (passed_expr value w).trans .refer
  | .unary _ operand, w => passed_expr operand w
  | .binary left _ right, w => (passed_expr left w).trans (passed_expr right _)
  | .logical left _ right, w => (passed_expr left w).trans (passed_expr right _)
  | .conditional condition _ whenTrue whenFalse, w =>
    ((passed_expr condition w).trans (passed_expr whenTrue _)).trans (passed_expr whenFalse _)
  | .call callee _ arguments, w => (passed_expr callee w).trans (passed_exprs arguments _)
  | .get object _, w => passed_expr object w
  | .set object _ value, w => (passed_expr object w).trans (passed_expr value _)
  | .function decl, w => passed_function .function decl w

/-- What the walk over arguments comes down to. -/
theorem passed_exprs : ∀ (es : List Expr) (w : Walk),
    Passed (Expr.idsAll es) [] w (exprs es w)
  | [], _ => .refl
  | e :: es, w => (passed_expr e w).trans (passed_exprs es _)

/-- What the walk over a statement comes down to. -/
theorem passed_stmt : ∀ (s : Stmt) (w : Walk), Passed s.ids s.declared w (stmt s w)
  | .expr e, w => passed_expr e w
  | .print e, w => passed_expr e w
  | .varDecl name none, w => passed_introduce w name
  | .varDecl name (some e), w => .declare (passed_expr e (w.declare name))
  | .block body, w => by
    have hbody := passed_stmts body (w.openScope ∅)
    exact hbody.leave rfl rfl hbody.context_leave.1 hbody.context_leave.2
  | .ifElse condition whenTrue none, w => (passed_expr condition w).trans (passed_stmt whenTrue _)
  | .ifElse condition whenTrue (some whenFalse), w =>
    ((passed_expr condition w).trans (passed_stmt whenTrue _)).trans (passed_stmt whenFalse _)
  | .whileLoop condition body, w => (passed_expr condition w).trans (passed_stmt body _)
  | .funDecl decl, w => by
    have h := (passed_nameFunction decl w).trans
      (passed_function .function decl (w.nameFunction decl))
    rwa [List.append_nil] at h
  | .ret keyword none, w => passed_checkReturn w keyword false
  | .ret keyword (some e), w => (passed_checkReturn w keyword true).trans (passed_expr e _)
  | .classDecl name methods, w => by
    have henter : w.enterClass name =
        openScope { w.introduce name with inClass := true } (thisScope name.line) := by
      unfold enterClass
      rw [introduce_inClass]
    have hmethods := passed_functions methods (w.enterClass name)
    have hbody := hmethods.context_leave.1.trans (congrArg Walk.body henter)
    have hclass := congrArg Prod.snd (onlyScopes_introduce w name).context
    exact (passed_introduce w name).trans (hmethods.leave henter rfl hbody hclass.symm)

/-- What the walk over a list of statements comes down to. -/
theorem passed_stmts : ∀ (ss : List Stmt) (w : Walk),
    Passed (Stmt.idsAll ss) (ss.flatMap Stmt.declared) w (stmts ss w)
  | [], _ => .refl
  | s :: ss, w => (passed_stmt s w).trans (passed_stmts ss _)

/-- A function leaves the scope of its parameters and its body behind. -/
theorem passed_function : ∀ (kind : Body) (decl : FunDecl) (w : Walk),
    Passed decl.ids [] w (function kind decl w)
  | kind, .mk name? params body, w => by
    have hbody := (passed_foldl_introduce params ({ w with body := kind }.openScope ∅)).trans
      (passed_stmts body _)
    exact hbody.leave rfl rfl rfl hbody.context_leave.2

/-- What the walk over the methods of a class comes down to. -/
theorem passed_functions : ∀ (fs : List FunDecl) (w : Walk),
    Passed (FunDecl.idsAll fs) [] w (functions fs w)
  | [], _ => .refl
  | f :: fs, w => (passed_function (methodBody f) f w).trans (passed_functions fs _)

end

/-! ### Parts of programs

`Passed.owners_eq`, `Passed.depths_of_notMem` and `Passed.context_eq`, part by part. -/

section Parts

variable {i : NodeId}

/-- Expressions declare nothing. -/
@[simp]
theorem owners_expr (e : Expr) (w : Walk) : (expr e w).owners = w.owners :=
  (passed_expr e w).owners_eq

/-- A statement declares the names of `Stmt.declared`. -/
@[simp]
theorem owners_stmt (s : Stmt) (w : Walk) :
    (stmt s w).owners = s.declared.foldl Owners.declare w.owners := (passed_stmt s w).owners_eq

/-- Statements declare their names in order. -/
@[simp]
theorem owners_stmts (ss : List Stmt) (w : Walk) :
    (stmts ss w).owners = (ss.flatMap Stmt.declared).foldl Owners.declare w.owners :=
  (passed_stmts ss w).owners_eq

/-- What a function declares is gone behind it. -/
@[simp]
theorem owners_function (kind : Body) (decl : FunDecl) (w : Walk) :
    (function kind decl w).owners = w.owners := (passed_function kind decl w).owners_eq

/-- An expression records depths for its own nodes. -/
theorem depths_expr (e : Expr) (w : Walk) (hi : i ∉ e.ids) :
    (expr e w).depths[i]? = w.depths[i]? := (passed_expr e w).depths_of_notMem hi

/-- A statement records depths for its own nodes. -/
theorem depths_stmt (s : Stmt) (w : Walk) (hi : i ∉ s.ids) :
    (stmt s w).depths[i]? = w.depths[i]? := (passed_stmt s w).depths_of_notMem hi

/-- Statements record depths for their own nodes. -/
theorem depths_stmts (ss : List Stmt) (w : Walk) (hi : i ∉ Stmt.idsAll ss) :
    (stmts ss w).depths[i]? = w.depths[i]? := (passed_stmts ss w).depths_of_notMem hi

/-- An expression is over in the body and the class that it stands in. -/
@[simp]
theorem context_expr (e : Expr) (w : Walk) : (expr e w).context = w.context :=
  (passed_expr e w).context_eq

/-- A statement is over in the body and the class that it stands in. -/
@[simp]
theorem context_stmt (s : Stmt) (w : Walk) : (stmt s w).context = w.context :=
  (passed_stmt s w).context_eq

/-- `context_stmt` for lists of statements. -/
@[simp]
theorem context_stmts (ss : List Stmt) (w : Walk) : (stmts ss w).context = w.context :=
  (passed_stmts ss w).context_eq

/-- A `return` is looked at in its own body. -/
@[simp]
theorem context_checkReturn (w : Walk) (t : Token) (b : Bool) :
    (w.checkReturn t b).context = w.context := (passed_checkReturn w t b).context_eq

/-- Behind a function, the walk is back in the body around it. -/
@[simp]
theorem context_function (kind : Body) (decl : FunDecl) (w : Walk) :
    (function kind decl w).context = w.context := (passed_function kind decl w).context_eq

end Parts

end Walk

end Scriptlet
