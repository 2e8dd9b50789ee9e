import Scriptlet.Proofs.Braces
import Scriptlet.Proofs.ScopeFrame

namespace Scriptlet

/-!
# Resolving programs with extra braces

The resolution walk over a program with extra braces reports the same, and records the same depths
but for the extra scopes in between.

* `Walk.Braced` — two walks, of which the second one is inside of extra scopes, with one lemma per
  step of the walk. Extra scopes stay empty.
* `Bracing.Ready` — two such walks that come to parts of programs, the second one with extra
  braces, with tables that hold what they record.
* `Bracing.follows` — behind the two parts the walks have reported the same, and the tables agree
  about the variables that nodes name.
* `Bracing.resolve` — what comes of whole programs.
-/

/-! ### Numbers of nodes -/

/-- Extra braces leave the nodes that name variables in place. -/
theorem Node.Braced.ids_eq {c : Bracing} {around : Around} {n n' : Node}
    (h : Node.Braced c around n n') : n'.ids = n.ids := by
  induction h with
  | literal | read | thisRef | noExprs | varDecl | ret | noStmts | noFunctions => rfl
  | group _ ih | unary _ ih | get _ ih | lambda _ ih | expr _ ih | print _ ih | varInit _ _ ih
  | block _ ih | funDecl _ _ ih | retValue _ ih | classDecl _ _ ih | function _ ih => exact ih
  | assign _ _ ih => exact congrArg (· ++ _) ih
  | brace _ _ ih => exact (List.append_nil _).trans ih
  | turn _ _ _ _ ih ih' => exact congrArg₂ (· ++ ·) ih ((List.append_nil _).trans ih')
  | binary _ _ ih ih' | logical _ _ ih ih' | call _ _ ih ih' | set _ _ ih ih' | exprs _ _ ih ih'
  | ifThen _ _ ih ih' | whileLoop _ _ ih ih' | stmts _ _ ih ih' | functions _ _ ih ih' =>
    exact congrArg₂ (· ++ ·) ih ih'
  | conditional _ _ _ ih ih' ih'' | ifElse _ _ _ _ ih ih' ih'' =>
    exact congrArg₂ (· ++ ·) (congrArg₂ (· ++ ·) ih ih') ih''

/-! ### Scopes -/

/-- Scopes of which the second ones are the first, with empty scopes in between. -/
abbrev LocalScope.Spread (around : Around) (ss ss' : List LocalScope) : Prop :=
  Scriptlet.Spread Eq (· = ∅) around ss ss'

namespace LocalScope.Spread

variable {around : Around} {ss ss' : List LocalScope}

/-- Outside of all extra braces, the scopes are the same. -/
theorem eq_of_forall₂ (h : List.Forall₂ Eq ss ss') : ss = ss' := by
  rwa [List.forall₂_eq_eq_eq] at h

/-- A name is found in the same scope, whose distance is shifted by the extra scopes. -/
theorem findIdx?_eq (h : LocalScope.Spread around ss ss') (x : String) :
    ss'.findIdx? (·.contains x) = (ss.findIdx? (·.contains x)).map around.shift := by
  induction h with
  | base h =>
    rw [eq_of_forall₂ h]
    exact Option.map_id'.symm
  | pair h _ ih =>
    cases h
    rw [List.findIdx?_cons, List.findIdx?_cons]
    split
    · rfl
    · rw [ih, Option.map_map, Option.map_map]
      rfl
  | extra h _ ih =>
    cases h
    rw [List.findIdx?_cons, ih, Option.map_map]
    simp only [Std.TreeMap.contains_emptyc, Bool.false_eq_true, if_false]
    rfl

/-- A scope that was found at some distance may be changed on both sides. -/
theorem modify (h : LocalScope.Spread around ss ss') (d : Nat) (f : LocalScope → LocalScope) :
    LocalScope.Spread around (ss.modify d f) (ss'.modify (around.shift d) f) := by
  induction h generalizing d with
  | base h =>
    rw [eq_of_forall₂ h]
    exact .base (List.forall₂_same.2 fun _ _ => rfl)
  | pair h hrest ih =>
    cases h
    cases d with
    | zero => exact .pair rfl hrest
    | succ d => exact .pair rfl (ih d)
  | extra h _ ih => exact .extra h (ih d)

/-- Where no brace is extra, both walks are in the same scope, and may change it together. -/
theorem heads (h : LocalScope.Spread around ss ss') (hplain : around.Plain) :
    ss = [] ∧ ss' = [] ∨ ∃ s rest rest', ss = s :: rest ∧ ss' = s :: rest' ∧
      ∀ s', LocalScope.Spread around (s' :: rest) (s' :: rest') := by
  cases h with
  | base h =>
    obtain rfl := eq_of_forall₂ h
    cases ss with
    | nil => exact .inl ⟨rfl, rfl⟩
    | cons s rest =>
      exact .inr ⟨s, rest, rest, rfl, rfl, fun _ => .base (List.forall₂_same.2 fun _ _ => rfl)⟩
  | pair h hrest =>
    cases h
    exact .inr ⟨_, _, _, rfl, rfl, fun _ => .pair rfl hrest⟩
  | extra => exact absurd rfl hplain

end LocalScope.Spread

/-! ### Walks -/

/-- Walks that have seen and reported the same, the second one inside of extra scopes. What they
    recorded is not compared. -/
structure Walk.Braced (around : Around) (w w' : Walk) : Prop where
  scopes : LocalScope.Spread around w.scopes w'.scopes
  body : w'.body = w.body
  inClass : w'.inClass = w.inClass
  report : w'.report = w.report

namespace Walk.Braced

variable {around : Around} {w w' : Walk}

section

variable (h : Walk.Braced around w w')

include h

/-- Both walks report the same fault. -/
theorem complain (t : Token) (fault : ScopeFault) :
    Walk.Braced around (w.complain t fault) (w'.complain t fault) :=
  { h with report := congrArg (·.add (.scope t fault)) h.report }

/-- A check that comes out the same on both sides. -/
theorem complainIf (c : Prop) [Decidable c] (t : Token) (fault : ScopeFault) :
    Walk.Braced around (if c then w.complain t fault else w)
      (if c then w'.complain t fault else w') := by
  split
  · exact h.complain t fault
  · exact h

/-- The depths of a name differ by the extra scopes in front of it. -/
theorem depth?_eq (x : String) :
    w'.depth? x = (w.depth? x).map around.shift :=
  h.scopes.findIdx?_eq x

/-- `refer` records a depth, and what is recorded is not compared. -/
theorem refer (id : NodeId) (t : Token) :
    Walk.Braced around (w.refer id t) (w'.refer id t) := by
  unfold Walk.refer
  rw [h.depth?_eq]
  cases w.depth? t.lexeme with
  | none => exact h
  | some d => exact { h with }

/-- `markRead` changes the scope that holds the name. -/
theorem markRead (t : Token) :
    Walk.Braced around (w.markRead t) (w'.markRead t) := by
  unfold Walk.markRead
  rw [h.depth?_eq]
  cases w.depth? t.lexeme with
  | none => exact h
  | some d => exact { h with scopes := h.scopes.modify d _ }

/-- `read` is `refer` and `markRead`. -/
theorem read (id : NodeId) (t : Token) :
    Walk.Braced around (w.read id t) (w'.read id t) :=
  (h.refer id t).markRead t

/-- Right inside of extra braces no initializer is being walked. -/
theorem inOwnInitializer_eq (hcalm : ¬ around.Plain → w.Settled)
    (x : String) : w'.inOwnInitializer x = w.inOwnInitializer x := by
  have hscopes := h.scopes
  have hcalm hplain := (hcalm hplain).inOwnInitializer_eq_false x
  unfold Walk.inOwnInitializer at hcalm ⊢
  generalize w.scopes = ss at hscopes hcalm ⊢
  generalize w'.scopes = ss' at hscopes ⊢
  cases hscopes with
  | base hs => rw [LocalScope.Spread.eq_of_forall₂ hs]
  | pair hs _ =>
    cases hs
    rfl
  | extra hs _ =>
    -- The extra scope holds no name, and in the scope around it all initializers are over.
    cases hs
    rw [hcalm fun hplain => hplain rfl]
    simp

/-- A name is declared in the scope that both walks are in. -/
theorem declare (hplain : around.Plain) (t : Token) :
    Walk.Braced around (w.declare t) (w'.declare t) := by
  unfold Walk.declare
  obtain ⟨hs, hs'⟩ | ⟨s, rest, rest', hs, hs', hsame⟩ := h.scopes.heads hplain
  · rw [hs, hs']
    exact h
  · rw [hs, hs']
    exact { h.complainIf _ t _ with scopes := hsame _ }

/-- The initializer of a name is over on both sides. -/
theorem define (hplain : around.Plain) (t : Token) :
    Walk.Braced around (w.define t) (w'.define t) := by
  unfold Walk.define
  obtain ⟨hs, hs'⟩ | ⟨s, rest, rest', hs, hs', hsame⟩ := h.scopes.heads hplain
  · rw [hs, hs']
    exact h
  · rw [hs, hs']
    exact { h with scopes := hsame _ }

/-- `introduce` is `declare` and `define`. -/
theorem introduce (hplain : around.Plain) (t : Token) :
    Walk.Braced around (w.introduce t) (w'.introduce t) :=
  (h.declare hplain t).define hplain t

/-- The parameters of a function are introduced one by one. -/
theorem foldl_introduce (hplain : around.Plain) (ts : List Token) :
    Walk.Braced around (ts.foldl Walk.introduce w) (ts.foldl Walk.introduce w') := by
  induction ts generalizing w w' with
  | nil => exact h
  | cons t ts ih => exact ih (h.introduce hplain t)

/-- Both walks enter a scope. -/
theorem openScope (s : LocalScope) :
    Walk.Braced (false :: around) (w.openScope s) (w'.openScope s) :=
  { h with scopes := .pair rfl h.scopes }

/-- An extra scope is entered. -/
theorem openExtra :
    Walk.Braced (true :: around) w (w'.openScope ∅) :=
  { h with scopes := .extra rfl h.scopes }

/-- What a scope reports in the end is reported one by one. -/
theorem foldl_complain (bs : List Binding) :
    Walk.Braced around
      (bs.foldl (fun w b => w.complain b.token (.neverUsed b.token.lexeme)) w)
      (bs.foldl (fun w b => w.complain b.token (.neverUsed b.token.lexeme)) w') := by
  induction bs generalizing w w' with
  | nil => exact h
  | cons b bs ih => exact ih (h.complain b.token _)

/-- `checkReturn` asks for the kind of body, which is the same. -/
theorem checkReturn (t : Token) (hasValue : Bool) :
    Walk.Braced around (w.checkReturn t hasValue) (w'.checkReturn t hasValue) := by
  have hfirst := h.complainIf (w.body = .topLevel) t .returnOutsideFunction
  unfold Walk.checkReturn
  simp only [h.body, hfirst.body]
  exact hfirst.complainIf _ t _

end

/-- Both walks leave a scope. -/
theorem closeScope (h : Walk.Braced (false :: around) w w') :
    Walk.Braced around w.closeScope w'.closeScope := by
  obtain ⟨scopes, body, inClass, depths, notes, report⟩ := w
  obtain ⟨scopes', body', inClass', depths', notes', report'⟩ := w'
  have hscopes : LocalScope.Spread (false :: around) scopes scopes' := h.scopes
  cases hscopes with
  | @pair _ s s' ss ss' hs hss =>
    cases hs
    have houter : Walk.Braced around ⟨ss, body, inClass, depths, notes, report⟩
        ⟨ss', body', inClass', depths', notes', report'⟩ := { h with scopes := hss }
    exact houter.foldl_complain s.unused

/-- An extra scope is left; nothing was declared in it that could be reported. -/
theorem closeExtra (h : Walk.Braced (true :: around) w w') :
    Walk.Braced around w w'.closeScope := by
  obtain ⟨scopes', body', inClass', depths', notes', report'⟩ := w'
  have hscopes : LocalScope.Spread (true :: around) w.scopes scopes' := h.scopes
  cases hscopes with
  | extra hs hss =>
    cases hs
    have hunused : LocalScope.unused ∅ = [] := rfl
    unfold Walk.closeScope
    simp only [hunused, List.foldl_nil]
    exact { h with scopes := hss }

end Walk.Braced

/-! ### Resolved programs -/

/-- Statements, and lists of them. -/
def Node.isStatement : Node → Bool
  | .stmt _ | .stmts _ => true
  | _ => false

/-- Parts of a program that may declare names in the scope they stand in. -/
def Node.mayDeclare : Node → Bool
  | .stmt s => s.isDeclaration
  | .stmts _ => true
  | _ => false

namespace Bracing

/-- Two walks that come to parts of programs, of which one was read, the second one inside of extra
    scopes, each with a table that holds what it will record. -/
structure Ready (table table' : Depths) (around : Around) (v v' : Visit) : Prop where
  walks : Walk.Braced around v.walk v'.walk
  lawful : v.Lawful (fun _ => True) ∨ v'.Lawful fun _ => True
  told : v.Told table
  told' : v'.Told table'
  /-- No name is declared right inside of extra braces, -/
  plain : v.node.mayDeclare = true → around.Plain
  /-- so no initializer is being walked there, -/
  calm : ¬ around.Plain → v.walk.Settled
  /-- nor in front of statements. -/
  settled : v.node.isStatement = true → v.walk.Settled

/-- What becomes of such walks, and of the two parts. -/
structure Follows (turns : Bool) (table table' : Depths) (around : Around) (v v' : Visit) :
    Prop where
  walks : Walk.Braced around (v.walk.past v.node) (v'.walk.past v'.node)
  braced : Node.Braced (.resolved turns table table') around v.node v'.node

variable {turns : Bool} {table table' : Depths} {around : Around} {v v' u u' : Visit}

variable {names : List Token} {n n' : Node} {w w' : Walk} {site site' : List Construct}

/-- On to what stands in the same scopes. -/
theorem Ready.child (h : Ready table table' around v v') (hc : v.Child u) (hc' : v'.Child u')
    (hw : Walk.Braced around u.walk u'.walk) (ht : Walk.Touched names v.walk.scopes u.walk.scopes)
    (hplain : u.node.mayDeclare = false ∨ around.Plain)
    (hstmt : u.node.isStatement = true → v.node.isStatement = true) :
    Ready table table' around u u' where
  walks := hw
  lawful := h.lawful.imp (·.child hc) (·.child hc')
  told := h.told.child hc
  told' := h.told'.child hc'
  plain hd := hplain.resolve_left fun hd' => Bool.false_ne_true (hd'.symm.trans hd)
  calm hextra := (h.calm hextra).touched ht
  settled hs := (h.settled (hstmt hs)).touched ht

/-- On to parts in front of which no name was declared. -/
theorem Ready.part {m m' : Node} {x x' : Walk}
    (h : Ready table table' around ⟨w, site, n⟩ ⟨w', site', n'⟩) (hp : w.Part n x m)
    (hp' : w'.Part n' x' m') (hw : Walk.Braced around x x')
    (hplain : m.mayDeclare = false) :
    Ready table table' around ⟨x, site, m⟩ ⟨x', site', m'⟩ := by
  obtain ⟨_, _, ⟨names, hpassed⟩, -⟩ := hp.split
  refine h.child (.part hp) (.part hp') hw hpassed.touched (.inl hplain) fun hstmt => ?_
  cases hp with
  | whenTrue | whenFalse | loopBody | statement => rfl
  | _ => cases hstmt

/-- On to parts that stand in a scope of their own. -/
theorem Ready.inside (h : Ready table table' around v v') (hc : v.Child u) (hc' : v'.Child u')
    (hw : Walk.Braced (false :: around) u.walk u'.walk)
    (hsettled : u.node.isStatement = true → u.walk.Settled) :
    Ready table table' (false :: around) u u' where
  walks := hw
  lawful := h.lawful.imp (·.child hc) (·.child hc')
  told := h.told.child hc
  told' := h.told'.child hc'
  plain _ := Around.plain_false around
  calm hextra := absurd (Around.plain_false around) hextra
  settled := hsettled

/-- On to what stands right inside of extra braces in the second program, for which the first walk
    enters no scope. -/
theorem Ready.behindBrace (h : Ready table table' around v v') (hb : v.Below u) (hb' : v'.Below u')
    (hw : Walk.Braced (true :: around) u.walk u'.walk)
    (ht : Walk.Touched names v.walk.scopes u.walk.scopes) (hv : v.node.isStatement = true)
    (hplain : u.node.mayDeclare = false) : Ready table table' (true :: around) u u' where
  walks := hw
  lawful := h.lawful.imp (·.below hb) (·.below hb')
  told := h.told.below hb
  told' := h.told'.below hb'
  plain hd := absurd (hplain.symm.trans hd) Bool.false_ne_true
  calm _ := (h.settled hv).touched ht
  settled _ := (h.settled hv).touched ht

/-- What holds of all well-formed parts, if it is not changed by extra braces. -/
theorem Ready.of_formed (h : Ready table table' around ⟨w, site, n⟩ ⟨w', site', n'⟩) {p : Prop}
    (hn : n.Formed (fun _ => True) → p) (hn' : n'.Formed (fun _ => True) → p) : p :=
  h.lawful.elim (fun h => hn h.formed) fun h => hn' h.formed

/-- **Walks over programs with extra braces.** Behind a part of a program and the same part with
    extra braces, two walks have reported the same, and the depths recorded for both parts are the
    same but for the extra scopes. -/
theorem follows (hbraced : Node.Braced (.any turns) around n n')
    (h : Ready table table' around ⟨w, site, n⟩ ⟨w', site', n'⟩) :
    Follows turns table table' around ⟨w, site, n⟩ ⟨w', site', n'⟩ := by
  induction hbraced generalizing site site' w w' with
  | literal => exact ⟨h.walks, .literal⟩
  | group _ ihe =>
    have he := ihe (h.part .grouped .grouped h.walks rfl)
    exact ⟨he.walks, .group he.braced⟩
  | @read around id name _ =>
    refine ⟨?_, .read ?_⟩
    · show Walk.Braced around (w.expr (.variable id name)) (w'.expr (.variable id name))
      rw [Walk.expr, Walk.expr, h.walks.inOwnInitializer_eq h.calm]
      exact (h.walks.complainIf _ name _).read id name
    · show table'[id]? = table[id]?.map around.shift
      rw [h.told.read, h.told'.read, h.walks.depth?_eq]
  | @thisRef around id name _ =>
    refine ⟨?_, .thisRef ?_⟩
    · show Walk.Braced around (w.expr (.thisRef id name)) (w'.expr (.thisRef id name))
      rw [Walk.expr, Walk.expr, h.walks.inClass]
      split
      · exact h.walks.read id name
      · exact h.walks.complain name _
    · show table'[id]? = table[id]?.map around.shift
      rw [h.told.thisRef, h.told'.thisRef, h.walks.depth?_eq, h.walks.inClass]
      split <;> rfl
  | @assign around id name e e' _ _ ihe =>
    -- The name is looked up when the value is over.
    have he := ihe (h.part .assigned .assigned h.walks rfl)
    have hwalks : Walk.Braced around (w.expr e) (w'.expr e') := he.walks
    refine ⟨hwalks.refer id name, .assign ?_ he.braced⟩
    show table'[id]? = table[id]?.map around.shift
    rw [h.told.assign, h.told'.assign, hwalks.depth?_eq]
  | unary _ ihe =>
    have he := ihe (h.part .operand .operand h.walks rfl)
    exact ⟨he.walks, .unary he.braced⟩
  | binary _ _ iha ihb =>
    have ha := iha (h.part .left .left h.walks rfl)
    have hb := ihb (h.part .right .right ha.walks rfl)
    exact ⟨hb.walks, .binary ha.braced hb.braced⟩
  | logical _ _ iha ihb =>
    have ha := iha (h.part .logicalLeft .logicalLeft h.walks rfl)
    have hb := ihb (h.part .logicalRight .logicalRight ha.walks rfl)
    exact ⟨hb.walks, .logical ha.braced hb.braced⟩
  | conditional _ _ _ ihc iha ihb =>
    have hc := ihc (h.part .chosenBy .chosenBy h.walks rfl)
    have ha := iha (h.part .chosenTrue .chosenTrue hc.walks rfl)
    have hb := ihb (h.part .chosenFalse .chosenFalse ha.walks rfl)
    exact ⟨hb.walks, .conditional hc.braced ha.braced hb.braced⟩
  | call _ _ ihe ihes =>
    have he := ihe (h.part .callee .callee h.walks rfl)
    have hes := ihes (h.part .arguments .arguments he.walks rfl)
    exact ⟨hes.walks, .call he.braced hes.braced⟩
  | get _ ihe =>
    have he := ihe (h.part .object .object h.walks rfl)
    exact ⟨he.walks, .get he.braced⟩
  | set _ _ iha ihb =>
    have ha := iha (h.part .owner .owner h.walks rfl)
    have hb := ihb (h.part .fieldValue .fieldValue ha.walks rfl)
    exact ⟨hb.walks, .set ha.braced hb.braced⟩
  | lambda _ ihf =>
    have hf := ihf (h.part .literal .literal h.walks rfl)
    exact ⟨hf.walks, .lambda hf.braced⟩
  | noExprs => exact ⟨h.walks, .noExprs⟩
  | exprs _ _ ihe ihes =>
    have he := ihe (h.part .argument .argument h.walks rfl)
    have hes := ihes (h.part .nextArguments .nextArguments he.walks rfl)
    exact ⟨hes.walks, .exprs he.braced hes.braced⟩
  | @brace around s s' hs _ ih =>
    -- The first walk stays where it is; the second one enters a scope in which nothing is declared.
    have hinside : Visit.Below ⟨w', site', .stmt (.block [s'])⟩
        ⟨w'.openScope ∅, .block [s'] :: site', .stmt s'⟩ :=
      ((Visit.Below.refl _).child .block).child (.part .statement)
    have hstmt := ih (h.behindBrace (.refl _) hinside h.walks.openExtra (.refl _) rfl hs)
    exact ⟨hstmt.walks.closeExtra, .brace hs hstmt.braced⟩
  | @turn around s s' e e' ht hs _ _ ih ihe =>
    -- Likewise for a turn, whose mark the first walk passes without a trace.
    have hbody : Visit.Below ⟨w, site, .stmt (.turn s e)⟩ ⟨w, site, .stmt s⟩ :=
      (Visit.Below.refl _).child (.part (.whenTrue (w := w)))
    have hblock : Visit.Below ⟨w', site', .stmt (.block [s', .expr e'])⟩
        ⟨w'.openScope ∅, .block [s', .expr e'] :: site', .stmts [s', .expr e']⟩ :=
      (Visit.Below.refl _).child .block
    have hstmt := ih (h.behindBrace hbody (hblock.child (.part .statement)) h.walks.openExtra
      (.refl _) rfl hs)
    have hincrement : Visit.Below ⟨w, site, .stmt (.turn s e)⟩ ⟨w.stmt s, site, .stmt (.expr e)⟩ :=
      (Visit.Below.refl _).child (.part (.whenFalse (w := w)))
    have hlast : Visit.Below ⟨w', site', .stmt (.block [s', .expr e'])⟩
        ⟨(w'.openScope ∅).stmt s', .block [s', .expr e'] :: site', .stmt (.expr e')⟩ :=
      (hblock.child .rest).child (.part .statement)
    have he := ihe (h.behindBrace (hincrement.child (.part .evaluated))
      (hlast.child (.part .evaluated)) hstmt.walks (Walk.touched_stmt s w) rfl rfl)
    exact ⟨he.walks.closeExtra, .turn ht hs hstmt.braced he.braced⟩
  | expr _ ihe =>
    have he := ihe (h.part .evaluated .evaluated h.walks rfl)
    exact ⟨he.walks, .expr he.braced⟩
  | print _ ihe =>
    have he := ihe (h.part .printed .printed h.walks rfl)
    exact ⟨he.walks, .print he.braced⟩
  | varDecl _ => exact ⟨h.walks.introduce (h.plain rfl) _, .varDecl (h.plain rfl)⟩
  | @varInit around name e e' _ _ ihe =>
    have hplain := h.plain rfl
    -- An initializer is walked, but the scope around it is not extra.
    have hinit : Ready table table' around ⟨w.declare name, site, .expr e⟩
        ⟨w'.declare name, site', .expr e'⟩ :=
      ⟨h.walks.declare hplain name, h.lawful.imp (·.child .initializer) (·.child .initializer),
        h.told.child .initializer, h.told'.child .initializer, nofun,
        fun hextra => absurd hplain hextra, nofun⟩
    have he := ihe hinit
    exact ⟨he.walks.define hplain name, .varInit hplain he.braced⟩
  | block _ ihbody =>
    have hbody := ihbody (h.inside .block .block (h.walks.openScope ∅) fun _ =>
      Walk.settled_openBlock w)
    exact ⟨hbody.walks.closeScope, .block hbody.braced⟩
  | ifThen _ hwhenTrue ihc iha =>
    have hdecl := h.of_formed (·.2.2) fun hformed =>
      hwhenTrue.isDeclaration_eq.symm.trans hformed.2.2
    have hc := ihc (h.part .condition .condition h.walks rfl)
    have ha := iha (h.part .whenTrue .whenTrue hc.walks hdecl)
    exact ⟨ha.walks, .ifThen hc.braced ha.braced⟩
  | ifElse ht _ hwhenTrue hwhenFalse ihc iha ihb =>
    have hdecl := h.of_formed (·.2.1.2) fun hformed =>
      hwhenTrue.isDeclaration_eq.symm.trans hformed.2.1.2
    have hdecl' := h.of_formed (·.2.2.2) fun hformed =>
      hwhenFalse.isDeclaration_eq.symm.trans hformed.2.2.2
    have hc := ihc (h.part .condition .condition h.walks rfl)
    have ha := iha (h.part .whenTrue .whenTrue hc.walks hdecl)
    have hb := ihb (h.part .whenFalse .whenFalse ha.walks hdecl')
    exact ⟨hb.walks, .ifElse ht hc.braced ha.braced hb.braced⟩
  | whileLoop _ hbody ihc iha =>
    have hdecl := h.of_formed (·.2.2) fun hformed => hbody.isDeclaration_eq.symm.trans hformed.2.2
    have hc := ihc (h.part .test .test h.walks rfl)
    have ha := iha (h.part .loopBody .loopBody hc.walks hdecl)
    exact ⟨ha.walks, .whileLoop hc.braced ha.braced⟩
  | @funDecl around decl decl' _ hf ihf =>
    have hplain := h.plain rfl
    have hnamed : Walk.Braced around (w.nameFunction decl) (w'.nameFunction decl') := by
      unfold Walk.nameFunction
      rw [hf.head_eq.1]
      cases decl.name? with
      | none => exact h.walks
      | some name => exact h.walks.introduce hplain name
    have hf := ihf (h.child .named .named hnamed (Walk.passed_nameFunction decl w).touched
      (.inl rfl) nofun)
    exact ⟨hf.walks, .funDecl hplain hf.braced⟩
  | ret => exact ⟨h.walks.checkReturn _ false, .ret⟩
  | @retValue around keyword e e' _ ihe =>
    have he := ihe (h.part .returned .returned (h.walks.checkReturn keyword true) rfl)
    exact ⟨he.walks, .retValue he.braced⟩
  | @classDecl around name _ _ _ _ ihmethods =>
    have hplain := h.plain rfl
    have hinClass : Walk.Braced around { w with inClass := true } { w' with inClass := true } :=
      { h.walks with inClass := rfl }
    have hentered : Walk.Braced (false :: around) (w.enterClass name) (w'.enterClass name) :=
      (hinClass.introduce hplain name).openScope _
    have hmethods := ihmethods (h.inside .methods .methods hentered nofun)
    refine ⟨?_, .classDecl hplain hmethods.braced⟩
    -- Behind the class, both walks are inside of a class again iff they were before it.
    exact { hmethods.walks.closeScope with inClass := h.walks.inClass }
  | noStmts => exact ⟨h.walks, .noStmts⟩
  | stmts _ _ ihs ihss =>
    have hplain := h.plain rfl
    have hs := ihs (h.child (.part .statement) (.part .statement) h.walks (.refl _) (.inr hplain)
      fun _ => rfl)
    have hss := ihss (h.child .rest .rest hs.walks (Walk.touched_stmt _ _) (.inr hplain)
      fun _ => rfl)
    exact ⟨hss.walks, .stmts hs.braced hss.braced⟩
  | @function around kind name? params body body' _ ihbody =>
    have hkind : Walk.Braced around { w with body := kind } { w' with body := kind } :=
      { h.walks with body := rfl }
    have hentered := (hkind.openScope ∅).foldl_introduce (Around.plain_false around) params
    have hbody := ihbody (h.inside .function .function hentered fun _ =>
      Walk.settled_enterFunction kind (.mk name? params body) w)
    refine ⟨?_, .function hbody.braced⟩
    -- Behind the function, both walks are in the body that they were in before it.
    exact { hbody.walks.closeScope with body := h.walks.body }
  | noFunctions => exact ⟨h.walks, .noFunctions⟩
  | @functions around f f' fs fs' hf _ ihf ihfs =>
    have hkind : Walk.methodBody f' = Walk.methodBody f := (hf.withKind .function).methodBody_eq
    have hready := h.part .method .method h.walks rfl
    rw [hkind] at hready
    have hf := ihf hready
    have hwalks : Walk.Braced around (w.function (Walk.methodBody f) f)
        (w'.function (Walk.methodBody f') f') := by
      rw [hkind]
      exact hf.walks
    have hfs := ihfs (h.part .nextMethods .nextMethods hwalks rfl)
    exact ⟨hfs.walks, .functions hf.braced hfs.braced⟩

/-- **Extra braces are transparent to the resolution walk.** For programs of which one is
    well-formed, with nodes that are new to the table, the same is reported with extra braces, and
    the depths that are recorded differ by the extra scopes only. -/
theorem resolve {ss ss' : List Stmt}
    (hbraced : Node.Braced (.any turns) [] (.stmts ss) (.stmts ss'))
    (hformed : Stmt.FormedAll (fun _ => True) ss ∨ Stmt.FormedAll (fun _ => True) ss')
    (hnodup : (Stmt.idsAll ss).Nodup) {depths : Depths}
    (hfresh : ∀ i ∈ Stmt.idsAll ss, depths[i]? = none) (report : Report) :
    (Resolution.resolve ss' depths report).2 = (Resolution.resolve ss depths report).2 ∧
      Node.Braced (.resolved turns (Resolution.resolve ss depths report).1
        (Resolution.resolve ss' depths report).1) [] (.stmts ss) (.stmts ss') := by
  have hids : Stmt.idsAll ss' = Stmt.idsAll ss := hbraced.ids_eq
  have hnodup' : (Stmt.idsAll ss').Nodup := hids ▸ hnodup
  -- Outside of all scopes, the two walks differ in nothing.
  have hready : Ready (Resolution.resolve ss depths report).1
      (Resolution.resolve ss' depths report).1 []
      ⟨Resolution.start depths report, [], .stmts ss⟩
      ⟨Resolution.start depths report, [], .stmts ss'⟩ :=
    ⟨⟨.base .nil, rfl, rfl, rfl⟩, hformed.imp (.start · hnodup) (.start · hnodup'),
      ⟨hnodup, hfresh, fun _ _ => rfl⟩, ⟨hnodup', fun i hi => hfresh i (hids ▸ hi), fun _ _ => rfl⟩,
      fun _ => nofun, fun hextra => absurd nofun hextra, fun _ => nofun⟩
  have hfollows := follows hbraced hready
  exact ⟨hfollows.walks.report, hfollows.braced⟩

end Bracing

end Scriptlet
