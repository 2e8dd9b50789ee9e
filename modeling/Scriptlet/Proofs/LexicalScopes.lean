import Scriptlet.Proofs.Paths
import Scriptlet.Proofs.ScopeFrame

namespace Scriptlet

/-!
# The scopes of names

Which declaration a name means, told by the tree alone.

* `Node.Declares` — a scope has a declaration of a name at a path. Scopes are told by the paths of
  what they were opened for.
* `Node.Resolves` — the innermost scope around a path that has a declaration of a name in front of
  the path, and the number of scopes in between; `Node.Means` — the last declaration there.
* `Node.WasRead` — a declaration that some name in front of a path means.
* `Node.Tells` — what is to be known about a name of a scope at a path. It is the same at the next
  path, unless something is declared or read in between (`Node.Tells.congr`).
-/

namespace Node

/-! ### Declarations -/

/-- The names that the scope of a part of a tree starts with. -/
def firstNames : Node → List String
  | .function _ decl => decl.params.map Token.lexeme
  | .stmt (.classDecl _ _) => ["this"]
  | _ => []

/-- The name that a part of a tree declares in the scope it stands in. -/
def declared? : Node → Option Token
  | .stmt (.varDecl name _) => some name
  | .stmt (.funDecl decl) => decl.name?
  | .stmt (.classDecl name _) => some name
  | _ => none

def isVarDecl : Node → Bool
  | .stmt (.varDecl _ _) => true
  | _ => false

section

variable (root : Node)

/-- The scope of `q` has a declaration of `x` at `r`. -/
inductive Declares (q : Path) (x : String) : Path → Prop
  | first {n : Node} (hq : root.at? q = some n) (hx : x ∈ n.firstNames) : Declares q x q
  | inside {r : Path} {n : Node} {name : Token} (hr : root.at? r = some n)
      (hname : n.declared? = some name) (hx : name.lexeme = x)
      (hq : (root.scopesAt r).head? = some q) : Declares q x r

/-- The scope of `q` has a declaration of `x` in front of `b`. -/
def Holds (q b : Path) (x : String) : Prop := ∃ r, root.Declares q x r ∧ r.Before b

/-- The scope of `q` is the `k`-th around `b`, and the first of them that has a declaration of `x`
    in front of `b`. -/
structure Resolves (b : Path) (x : String) (k : Nat) (q : Path) : Prop where
  scope : (root.scopesAt b)[k]? = some q
  holds : root.Holds q b x
  first : ∀ j < k, ∀ q', (root.scopesAt b)[j]? = some q' → ¬ root.Holds q' b x

/-- The last declaration of `x` in the scope of `q` in front of `b` is at `r`. -/
structure Latest (q b : Path) (x : String) (r : Path) : Prop where
  declares : root.Declares q x r
  before : r.Before b
  last : ∀ r', root.Declares q x r' → r'.Before b → ¬ r.Before r'

/-- At `b`, the name `x` means its declaration at `r` in the scope of `q`. -/
structure Means (b : Path) (x : String) (q r : Path) : Prop where
  home : ∃ k, root.Resolves b x k q
  latest : root.Latest q b x r

/-- What is at a path reads a name. -/
inductive Reads (p : Path) : String → Prop
  | name {id : NodeId} {name : Token} (hp : root.at? p = some (.expr (.variable id name))) :
      Reads p name.lexeme
  | this {id : NodeId} {keyword : Token} (hp : root.at? p = some (.expr (.thisRef id keyword)))
      (hclass : root.inClassAt p = true) : Reads p keyword.lexeme

/-- The declaration of `x` at `r` in the scope of `q` was read in front of `b`. That of `this`
    always counts as read. -/
def WasRead (q b : Path) (x : String) (r : Path) : Prop :=
  (r = q ∧ (root.at? q).any isClass = true) ∨
    ∃ p, p.Before b ∧ root.Reads p x ∧ root.Means p x q r

/-- The path is inside of the initializer of the variable that is declared at `r`. -/
def InProgress (r b : Path) : Prop := (root.at? r).any isVarDecl = true ∧ r ∈ b.above

/-- What has happened in front of `b` to the declaration of `x` at `r` in the scope of `q`. -/
def Used (q b : Path) (x : String) (r : Path) : Usage → Prop
  | .read => root.WasRead q b x r
  | .declared => ¬ root.WasRead q b x r ∧ root.InProgress r b
  | .defined => ¬ root.WasRead q b x r ∧ ¬ root.InProgress r b

/-- What a scope knows at `b` about a name if it is the scope of `q`. -/
inductive Tells (q b : Path) (x : String) : Option Binding → Prop
  | unknown (h : ¬ root.Holds q b x) : Tells q b x none
  | known {r : Path} {binding : Binding} (hr : root.Latest q b x r)
      (hused : root.Used q b x r binding.usage) : Tells q b x (some binding)

end

variable {root n : Node} {q p r b b' : Path} {x : String} {k : Nat}

variable {qs : List Path} {q' : Path} {found : Option Binding}

theorem Declares.isSome_at? (h : root.Declares q x r) : (root.at? r).isSome = true := by
  cases h with
  | first hq => rw [hq, Option.isSome_some]
  | inside hr => rw [hr, Option.isSome_some]

theorem Reads.isSome_at? (h : root.Reads p x) : (root.at? p).isSome = true := by
  cases h with
  | name hp => rw [hp, Option.isSome_some]
  | this hp => rw [hp, Option.isSome_some]

/-- A scope has declarations only inside of what it was opened for. -/
theorem Declares.eq_or_mem_above (h : root.Declares q x r) : r = q ∨ q ∈ r.above := by
  cases h with
  | first => exact .inl rfl
  | inside _ _ _ hq => exact .inr (mem_above_of_mem_scopesAt (List.mem_of_mem_head? hq))

/-- What declares a name in a scope around it is in no scope in between. -/
theorem Declares.head?_eq (h : root.Declares q x r) (hne : r ≠ q) :
    (root.scopesAt r).head? = some q := by
  cases h with
  | first => exact absurd rfl hne
  | inside _ _ _ hq => exact hq

theorem Declares.declared (h : root.Declares q x r) (hne : r ≠ q) (hr : root.at? r = some n) :
    ∃ name, n.declared? = some name ∧ name.lexeme = x := by
  cases h with
  | first => exact absurd rfl hne
  | inside hn hname hx =>
    cases hn.symm.trans hr
    exact ⟨_, hname, hx⟩

/-- What is declared at a path belongs to the innermost scope around it. -/
theorem declares_iff {name : Token} (hqs : root.scopesAt p = q :: qs) (hp : root.at? p = some n)
    (hname : n.declared? = some name) : root.Declares q x p ↔ x = name.lexeme := by
  have hhead : (root.scopesAt p).head? = some q := by rw [hqs, List.head?_cons]
  constructor
  · intro h
    have hne := (before_of_mem_scopesAt (List.mem_of_mem_head? hhead)).ne.symm
    obtain ⟨name', hname', rfl⟩ := h.declared hne hp
    cases hname.symm.trans hname'
    rfl
  · rintro rfl
    exact .inside hp hname rfl hhead

theorem not_declares_outer (hqs : root.scopesAt p = q :: qs) (hq' : q' ∈ qs) :
    ¬ root.Declares q' x p := by
  intro h
  have hmem : q' ∈ root.scopesAt p := hqs ▸ List.mem_cons_of_mem q hq'
  have hhead := h.head?_eq (before_of_mem_scopesAt hmem).ne.symm
  have hnodup := nodup_scopesAt root p
  rw [hqs] at hhead hnodup
  cases hhead
  exact (List.nodup_cons.1 hnodup).1 hq'

/-- Nothing is declared in a scope before it is opened. -/
theorem Declares.not_before (h : root.Declares q x r) : ¬ r.Before q := by
  obtain rfl | hq := h.eq_or_mem_above
  · exact Path.Before.irrefl r
  · exact (Path.before_of_mem_above hq).asymm

/-- The scope that a name resolves to is unique. -/
theorem Resolves.unique {k' : Nat} (h : root.Resolves b x k q) (h' : root.Resolves b x k' q') :
    k = k' := by
  obtain hlt | heq | hlt := Nat.lt_trichotomy k k'
  · exact absurd h.holds (h'.first k hlt q h.scope)
  · exact heq
  · exact absurd h'.holds (h.first k' hlt q' h'.scope)

/-- The last declaration is unique. -/
theorem Latest.unique {r' : Path} (h : root.Latest q b x r) (h' : root.Latest q b x r') :
    r = r' := by
  obtain hlt | heq | hlt := Path.before_or_eq_or_before r r'
  · exact absurd hlt (h.last r' h'.declares h'.before)
  · exact heq
  · exact absurd hlt (h'.last r h.declares h.before)

/-! ### From one gap to another -/

/-- Declarations of a name in a scope are in front of both paths, or of none. -/
theorem Latest.congr (h : ∀ r, root.Declares q x r → (r.Before b' ↔ r.Before b)) :
    root.Latest q b' x r ↔ root.Latest q b x r := by
  constructor
  · rintro ⟨hdeclares, hbefore, hlast⟩
    exact ⟨hdeclares, (h r hdeclares).1 hbefore, fun r' hr' hb => hlast r' hr' ((h r' hr').2 hb)⟩
  · rintro ⟨hdeclares, hbefore, hlast⟩
    exact ⟨hdeclares, (h r hdeclares).2 hbefore, fun r' hr' hb => hlast r' hr' ((h r' hr').1 hb)⟩

theorem WasRead.congr
    (h : ∀ p, root.Reads p x → root.Means p x q r → (p.Before b' ↔ p.Before b)) :
    root.WasRead q b' x r ↔ root.WasRead q b x r := by
  unfold WasRead
  refine or_congr_right (exists_congr fun p => and_congr_left fun hp => h p hp.1 hp.2)

theorem Used.congr {u : Usage} (hread : root.WasRead q b' x r ↔ root.WasRead q b x r)
    (hprogress : root.InProgress r b' ↔ root.InProgress r b) :
    root.Used q b' x r u ↔ root.Used q b x r u := by
  cases u with
  | read => exact hread
  | declared => exact and_congr (not_congr hread) hprogress
  | defined => exact and_congr (not_congr hread) (not_congr hprogress)

/-- Between gaps where nothing happens to a name of a scope, the scope keeps what it knows. -/
theorem Tells.congr (hdeclares : ∀ r, root.Declares q x r → (r.Before b' ↔ r.Before b))
    (hreads : ∀ r p, root.Reads p x → root.Means p x q r → (p.Before b' ↔ p.Before b))
    (hprogress : ∀ r, root.Latest q b x r → (root.InProgress r b' ↔ root.InProgress r b))
    (h : root.Tells q b x found) : root.Tells q b' x found := by
  cases h with
  | unknown h =>
    refine .unknown ?_
    rintro ⟨r, hr, hb⟩
    exact h ⟨r, hr, (hdeclares r hr).1 hb⟩
  | @known r binding hr hused =>
    refine .known ((Latest.congr hdeclares).2 hr) ?_
    exact (Used.congr (WasRead.congr (hreads r)) (hprogress r hr)).2 hused

/-- A scope knows the names that it holds. -/
theorem Tells.isSome_iff (h : root.Tells q b x found) : found.isSome = true ↔ root.Holds q b x := by
  cases h with
  | unknown h => simp [h]
  | @known r _ hr => exact ⟨fun _ => ⟨r, hr.declares, hr.before⟩, fun _ => rfl⟩

/-- A path that declares nothing brings no declaration in front of the next gap. -/
theorem Declares.before_concat_zero_iff (hr : root.Declares q x r) (h : ¬ root.Declares q x p) :
    r.Before (p ++ [0]) ↔ r.Before p := by
  rw [Path.before_concat_zero]
  refine or_iff_left ?_
  rintro rfl
  exact h hr

/-- What is at a path neither declares nor reads the name of the scope. -/
theorem Tells.enter (h : root.Tells q p x found) (hdeclares : ¬ root.Declares q x p)
    (hreads : ∀ r, root.Reads p x → ¬ root.Means p x q r) : root.Tells q (p ++ [0]) x found := by
  refine h.congr (fun r hr => hr.before_concat_zero_iff hdeclares) (fun r p' hp' hmeans => ?_)
    fun r hr => ?_
  · rw [Path.before_concat_zero]
    refine or_iff_left ?_
    rintro rfl
    exact hreads r hp' hmeans
  · unfold InProgress
    rw [Path.above_concat, List.mem_cons, or_iff_right hr.before.ne]

/-- A scope starts with nothing but its first names. -/
theorem not_holds_of_not_mem (hp : root.at? p = some n) (hx : x ∉ n.firstNames) :
    ¬ root.Holds p (p ++ [0]) x := by
  rintro ⟨r, hr, hb⟩
  obtain hb | rfl := Path.before_concat_zero.1 hb
  · exact hr.not_before hb
  · cases hr with
    | first hq hmem =>
      cases hq.symm.trans hp
      exact hx hmem
    | inside _ _ _ hq =>
      exact Path.Before.irrefl r (before_of_mem_scopesAt (List.mem_of_mem_head? hq))

/-- What is declared at a path is the last declaration in front of the next gap, and nothing has
    read it yet. -/
theorem Declares.latest (h : root.Declares q x p) : root.Latest q (p ++ [0]) x p := by
  refine ⟨h, Path.before_concat_zero.2 (.inr rfl), fun r' _ hr' => ?_⟩
  obtain hr' | rfl := Path.before_concat_zero.1 hr'
  · exact hr'.asymm
  · exact Path.Before.irrefl r'

theorem not_wasRead_concat_zero (h : ¬ (p = q ∧ (root.at? q).any isClass = true)) :
    ¬ root.WasRead q (p ++ [0]) x p := by
  rintro (hthis | ⟨r, hr, -, hmeans⟩)
  · exact h hthis
  · obtain hr | rfl := Path.before_concat_zero.1 hr
    · exact hmeans.latest.before.asymm hr
    · exact Path.Before.irrefl r hmeans.latest.before

end Node

end Scriptlet
