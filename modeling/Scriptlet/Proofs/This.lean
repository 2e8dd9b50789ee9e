import Scriptlet.Proofs.Diagnostics
import Scriptlet.Proofs.CallLimit

namespace Scriptlet

/-!
# Where `this` is bound

* `Visit.HoldsThis` — the scopes of classes hold `this`, and no other scope does. So the distance
  of `this` is that of the innermost class around it.
* `Visit.Accepted.inClass_eq_true` — in an accepted program, `this` stands inside of a class.
* `Session.After.recordsThis`, `Session.Moment.recordsThis` — where the names of all sources were
  resolved, every `this` inside of a class has a recorded depth.
-/

/-! ### The scopes of classes -/

/-- A scope around the methods of a class. -/
def Construct.isClass : Construct → Bool
  | .methods _ _ => true
  | _ => false

/-- A name is not the word `this`. -/
theorem Token.IsName.ne_this {name : Token} (h : name.IsName Token.Spelled) :
    name.lexeme ≠ "this" :=
  h.1.ne_spelling h.2 (by decide : Symbol.thisKw ∈ Symbol.keywords)

/-- The names that a well-formed statement declares are names. -/
theorem Stmt.Formed.isName_of_mem_declared {T : Token → Prop} {s : Stmt} (hs : s.Formed T) :
    ∀ name ∈ s.declared, name.IsName T := by
  intro name hname
  cases s with
  | varDecl x e =>
    cases List.mem_singleton.1 hname
    cases e with
    | none => exact hs
    | some e => exact hs.1
  | funDecl decl =>
    cases decl
    exact hs.1.1 name (Option.mem_toList.1 hname)
  | classDecl x methods =>
    cases List.mem_singleton.1 hname
    exact hs.1
  | expr | print | block | ifElse | whileLoop | ret =>
    rw [Stmt.declared_eq_nil hs rfl] at hname
    cases hname

/-- Which of the scopes hold `this`. -/
def Owners.this (owners : Owners) : List Bool := owners.map fun scope => (scope "this").isSome

theorem Owners.this_declare (owners : Owners) {name : Token} (h : name.lexeme ≠ "this") :
    (owners.declare name).this = owners.this := by
  cases owners with
  | nil => rfl
  | cons scope outer => simp [Owners.declare, Owners.this, h.symm]

theorem Owners.this_foldl_declare (owners : Owners) {names : List Token}
    (h : ∀ name ∈ names, name.IsName Token.Spelled) :
    (names.foldl Owners.declare owners).this = owners.this := by
  induction names generalizing owners with
  | nil => rfl
  | cons name names ih =>
    obtain ⟨hname, hnames⟩ := List.forall_mem_cons.1 h
    rw [List.foldl_cons, ih _ hnames, Owners.this_declare owners hname.ne_this]

namespace Visit

/-- `this` is held by the scopes of classes and by no others, and the walk knows when it is
    inside of one. -/
structure HoldsThis (v : Visit) : Prop where
  owners : v.walk.owners.this = v.site.map Construct.isClass
  inClass : v.walk.inClass = v.site.any Construct.isClass

variable {v u : Visit}

theorem holdsThis_program (s : Session) (source : String) : (s.program source).HoldsThis :=
  ⟨rfl, rfl⟩

theorem HoldsThis.child (hv : v.HoldsThis) (hlawful : v.Lawful Token.Spelled)
    (hc : v.Child u) : u.HoldsThis := by
  obtain ⟨howners, hclass⟩ := hv
  have hformed := hlawful.formed
  -- A walk in the same class, whose scopes hold `this` where they did.
  have same {w w' : Walk} {site : List Construct} {n n' : Node} (hv : HoldsThis ⟨w, site, n⟩)
      (ho : w'.owners.this = w.owners.this) (hcontext : w'.context = w.context) :
      HoldsThis ⟨w', site, n'⟩ :=
    ⟨ho.trans hv.owners, (congrArg Prod.snd hcontext).trans hv.inClass⟩
  cases hc with
  | @part w site n w' n' h =>
    have hcontext : w'.context = w.context := by cases h <;> simp
    exact same ⟨howners, hclass⟩ (by rw [h.owners hformed]) hcontext
  | initializer =>
    refine same ⟨howners, hclass⟩ ?_ (Walk.onlyScopes_declare _ _).context
    rw [Walk.owners_declare, Owners.this_declare _ hformed.1.ne_this]
  | @named w site decl =>
    have hcontext : (w.nameFunction decl).context = w.context := by
      unfold Walk.nameFunction
      split
      · exact (Walk.onlyScopes_introduce _ _).context
      · rfl
    refine same ⟨howners, hclass⟩ ?_ hcontext
    rw [(Walk.passed_nameFunction _ _).owners_eq]
    exact Owners.this_foldl_declare _
      (Stmt.Formed.isName_of_mem_declared (s := .funDecl decl) hformed)
  | rest =>
    refine same ⟨howners, hclass⟩ ?_ (Walk.context_stmt _ _)
    rw [Walk.owners_stmt]
    exact Owners.this_foldl_declare _ hformed.1.isName_of_mem_declared
  | block =>
    refine ⟨?_, hclass⟩
    rw [Walk.owners_openBlock]
    exact congrArg (false :: ·) howners
  | @function w site kind decl =>
    obtain ⟨name?, params, body⟩ := decl
    refine ⟨?_, ?_⟩
    · rw [Walk.owners_enterFunction]
      refine (Owners.this_foldl_declare _ hformed.2.1).trans ?_
      exact congrArg (false :: ·) howners
    · unfold Walk.enterFunction
      exact (congrArg Prod.snd (Walk.passed_foldl_introduce _ _).context_eq).trans hclass
  | @methods w site name decls =>
    refine ⟨?_, ?_⟩
    · rw [Walk.owners_enterClass]
      refine congrArg (true :: ·) ?_
      exact (Owners.this_declare _ hformed.1.ne_this).trans howners
    · exact congrArg Prod.snd (Walk.onlyScopes_introduce { w with inClass := true } name).context

theorem HoldsThis.below (hv : v.HoldsThis) (hlawful : v.Lawful Token.Spelled) (h : v.Below u) :
    u.HoldsThis := by
  induction h with
  | refl => exact hv
  | tail hbelow hc ih => exact ih.child (hlawful.below hbelow) hc

/-- The distance of `this` is that of the innermost class. -/
theorem HoldsThis.depth?_eq (hv : v.HoldsThis) :
    v.walk.depth? "this" = v.site.findIdx? Construct.isClass := by
  have hfind {α : Type} (xs : List α) (p : α → Bool) :
      xs.findIdx? p = (xs.map p).findIdx? id := by
    rw [List.findIdx?_map]
    rfl
  rw [Walk.depth?_eq, hfind, hfind v.site]
  exact congrArg _ hv.owners

/-- What is recorded for a node while the walk is over it is recorded for it at the end. -/
theorem Below.depths (h : v.Below u) (hn : v.node.ids.Nodup) {i : NodeId} (hi : i ∈ u.node.ids) :
    (u.walk.past u.node).depths[i]? = (v.walk.past v.node).depths[i]? := by
  induction h with
  | refl => rfl
  | tail hbelow hc ih =>
    have hnodup := hn.sublist (Below.ids hbelow)
    rw [(hc.depths hnodup hi).2]
    exact ih (hc.ids.subset hi)

/-- Inside of a class, a depth is recorded for `this`. -/
theorem HoldsThis.isSome_depths (hv : v.HoldsThis) (hlawful : v.Lawful Token.Spelled)
    (h : v.Below u) {id : NodeId} {keyword : Token} (hu : u.node = .expr (.thisRef id keyword))
    (hclass : u.walk.inClass = true) : (v.walk.past v.node).depths[id]?.isSome = true := by
  obtain ⟨w, site, n⟩ := u
  cases hu
  have hthis := hv.below hlawful h
  obtain ⟨hspelled, s, hs, hkeyword⟩ := (hlawful.below h).formed
  cases List.mem_singleton.1 hs
  have hlexeme : keyword.lexeme = "this" := hspelled.lexeme_of_is hkeyword
  obtain ⟨d, hd⟩ : ∃ d, w.depth? "this" = some d := by
    have hany := hthis.inClass.symm.trans hclass
    rw [hthis.depth?_eq]
    exact Option.isSome_iff_exists.1 (List.findIdx?_isSome.trans hany)
  rw [← h.depths hlawful.nodup (List.mem_singleton_self id)]
  show (w.expr (.thisRef id keyword)).depths[id]?.isSome = true
  rw [Walk.expr, if_pos hclass, Walk.depths_read, if_pos rfl, hlexeme, hd]
  rfl

end Visit

/-! ### Recorded depths -/

/-- A tree contains itself, and what its parts contain. -/
def Node.Contains : Node → Node → Prop := Relation.ReflTransGen fun n part => part ∈ n.children

theorem Visit.exists_below {v : Visit} {n : Node} (h : v.node.Contains n) :
    ∃ u, v.Below u ∧ u.node = n := by
  induction h with
  | refl => exact ⟨v, Visit.Below.refl v, rfl⟩
  | tail _ hpart ih =>
    obtain ⟨u, hbelow, rfl⟩ := ih
    obtain ⟨u', hchild, rfl⟩ := Visit.exists_child hpart
    exact ⟨u', hbelow.child hchild, rfl⟩

/-- Nothing is wrong with the program. -/
def Visit.Accepted (p : Visit) : Prop := (p.walk.past p.node).report.hadError = false

/-- Everywhere in an accepted program, `this` stands inside of a class. -/
theorem Visit.Accepted.inClass_eq_true {p u : Visit} (hp : p.Accepted) (h : p.Below u)
    {id : NodeId} {keyword : Token} (hu : u.node = .expr (.thisRef id keyword)) :
    u.walk.inClass = true := by
  have hclean : (u.walk.past u.node).Clean := by
    apply h.clean
    have hempty : (p.walk.past p.node).report.errors.isEmpty = true := by
      simpa [Visit.Accepted, Report.hadError, Report.isEmpty] using hp
    exact Array.isEmpty_iff_size_eq_zero.1 hempty
  rw [hu] at hclean
  exact Walk.Clean.inClass_eq_true hclean

/-- A request after which the names of its source, if it has one, are resolved. -/
def Request.resolves : Request → Bool
  | .unresolved _ => false
  | _ => true

/-- Every `this` inside of a class has a recorded depth. -/
def History.RecordsThis (h : History) (depths : Depths) : Prop :=
  ∀ v id keyword, h.Knows v → v.node = .expr (.thisRef id keyword) → v.walk.inClass = true →
    depths[id]?.isSome = true

section Recording

variable {host : Host} {sink : Sink} {rs : List Request} {s : Session} {h : History} {t : State}

/-- Resolving the names of a source records depths for the new nodes, and keeps the others. -/
theorem History.RecordsThis.analyze (hh : h.RecordsThis s.machine.depths) (hs : s.Sound h)
    (source : String) :
    (h.read (s.program source)).RecordsThis (s.analyze source).2.machine.depths := by
  obtain ⟨hlawful, hrange, -⟩ := s.program_spec source
  intro v id keyword hv hnode hclass
  obtain ⟨p, hp, hbelow⟩ | hbelow := History.knows_read.1 hv
  · have hmem : id ∈ v.node.ids := hnode ▸ List.mem_singleton_self id
    have hold : id < s.nextNode := hs.ids p hp id ((Visit.Below.ids hbelow).subset hmem)
    have hkept : (s.analyze source).2.machine.depths[id]? = s.machine.depths[id]? :=
      Walk.depths_stmts _ _ fun hnew => absurd (hrange id hnew).1 (Nat.not_le.2 hold)
    rw [hkept]
    exact hh v id keyword ⟨p, hp, hbelow⟩ hnode hclass
  · exact (Visit.holdsThis_program s source).isSome_depths hlawful hbelow hnode hclass

/-- What a request runs has its depths recorded. -/
theorem History.RecordsThis.job (hh : h.RecordsThis s.machine.depths) (hs : s.Sound h)
    {r : Request} (hr : r.resolves = true) {job : Job} (hj : r.job? s = some job)
    (made : List Making) :
    History.RecordsThis ⟨h.programs ++ (r.program? s).toList, made⟩ job.machine.depths := by
  obtain ⟨source, hprogram, -, hmachine | ⟨rfl, -⟩⟩ := Request.job_cases hj
  · rw [hprogram, hmachine]
    exact hh.analyze hs source
  · cases hr

/-- Where the names of all sources were resolved, every `this` inside of a class has a recorded
    depth. -/
theorem Session.After.recordsThis (hs : Session.After host sink rs s h)
    (hrs : ∀ r ∈ rs, r.resolves = true) (hnatives : ∀ r ∈ rs, r.DefinesOnly Native.Honest) :
    h.RecordsThis s.machine.depths := by
  induction hs with
  | new =>
    rintro v id keyword ⟨p, hp, -⟩
    exact absurd hp List.not_mem_nil
  | @next rs s h r s' fuel hs hr ih =>
    obtain ⟨hrs, hresolves⟩ := List.forall_mem_append.1 hrs
    have hnatives := (List.forall_mem_append.1 hnatives).1
    have hbefore := ih hrs hnatives
    have hsound := hs.sound hnatives
    show History.RecordsThis _ s'.machine.depths
    obtain ⟨job, _, source, hj, -⟩ | ⟨source, -, hp, -, rfl⟩ | ⟨n, rfl, -, rfl⟩ :=
      Request.perform_cases hr
    · have hdepths : s'.machine.depths = job.machine.depths :=
        congrArg Prod.fst (Request.fixed_perform hr hj)
      rw [hdepths]
      exact hbefore.job hsound (hresolves _ (List.mem_singleton_self _)) hj _
    · rw [hp]
      exact hbefore.analyze hsound source
    · simp only [Request.program?, Option.toList_none, List.append_nil]
      exact hbefore

/-- No step records a depth. -/
theorem Machine.Passes.depths_eq {alone : Bool} {ss : List Stmt} {m : Machine}
    {made made' : List Making} (ht : Machine.Passes host alone ss m made t made')
    (hdesync : t.isDesync = false) : t.machine.depths = m.depths := by
  induction ht with
  | @now s rest m made n =>
    have hreturns := (m.returns_begin alone s).steps host n
    generalize (step host)^[n] (m.begin alone s) = t at hreturns hdesync ⊢
    cases t with
    | eval | exec | value | flow => exact Standing.Awaits.depths hreturns
    | failed => exact congrArg Standing.depths hreturns
    | desync => cases hdesync
  | later fuel hnext _ ih =>
    exact (ih hdesync).trans (congrArg Standing.depths (Machine.standing_goOn hnext))

theorem Session.Moment.recordsThis (ht : Session.Moment host sink rs t h)
    (hrs : ∀ r ∈ rs, r.resolves = true) (hnatives : ∀ r ∈ rs, r.DefinesOnly Native.Honest)
    (hdesync : t.isDesync = false) : h.RecordsThis t.machine.depths := by
  obtain ⟨hs, hj, hp⟩ := ht
  rw [hp.depths_eq hdesync]
  obtain ⟨hrs, hresolves⟩ := List.forall_mem_append.1 hrs
  have hnatives := (List.forall_mem_append.1 hnatives).1
  exact (hs.recordsThis hrs hnatives).job (hs.sound hnatives)
    (hresolves _ (List.mem_singleton_self _)) hj _

end Recording

end Scriptlet
