import Mathlib.Data.List.Infix
import Mathlib.Data.List.Lex
import Scriptlet.Proofs.Visit

namespace Scriptlet

/-!
# Paths in a tree

* `Path` — the way from the root of a tree to one of its parts; `Node.at?` — the part there.
* `Path.Before` — the order in which the walk comes to paths: from left to right, and to a part
  before its own parts. There need not be a part at a path, so that the gaps between parts have
  paths, too: `p ++ [i]` is in front of the `i`-th part of what is at `p`, or behind the last one.
* `Path.above` — the paths on the way to a path.
* `Node.scopesAt`, `Node.inClassAt`, `Node.bodyAt` — what a path is inside of.
-/

/-- The way from the root of a tree to one of its parts: at each step, which part is next. -/
abbrev Path := List Nat

/-! ### The order of paths -/

namespace Path

/-- The walk comes to the first path before it comes to the second one. -/
def Before : Path → Path → Prop
  | _, [] => False
  | [], _ :: _ => True
  | i :: p, j :: q => i < j ∨ i = j ∧ Before p q

variable {p q r : Path}

/-- Unfolding lemma: nothing is before the root. -/
@[simp]
theorem not_before_nil (p : Path) : ¬ p.Before [] := by
  cases p <;> exact id

/-- Unfolding lemma: the root is before all of its parts. -/
@[simp]
theorem nil_before_cons (i : Nat) (p : Path) : Before [] (i :: p) := trivial

/-- Unfolding lemma: paths with a common start are compared behind it. -/
@[simp]
theorem cons_before_cons (i j : Nat) (p q : Path) :
    Before (i :: p) (j :: q) ↔ i < j ∨ i = j ∧ p.Before q := Iff.rfl

/-- `Before` is the lexicographic order of lists, so its laws are those of `List.Lex`. -/
theorem before_iff_lex : p.Before q ↔ List.Lex (· < ·) p q := by
  induction p generalizing q with
  | nil => cases q <;> simp
  | cons i p ih =>
    cases q with
    | nil => simp
    | cons j q => rw [cons_before_cons, List.cons_lex_cons_iff, ih]

/-- No path is before itself. -/
theorem Before.irrefl (p : Path) : ¬ p.Before p :=
  fun h => List.lex_irrefl Nat.lt_irrefl p (before_iff_lex.1 h)

/-- The order is transitive. -/
theorem Before.trans (h : p.Before q) (h' : q.Before r) : p.Before r :=
  before_iff_lex.2 (List.lex_trans Nat.lt_trans (before_iff_lex.1 h) (before_iff_lex.1 h'))

/-- Of two paths, at most one is before the other. -/
theorem Before.asymm (h : p.Before q) : ¬ q.Before p := fun h' => Before.irrefl p (h.trans h')

/-- A path is none of those before it. -/
theorem Before.ne (h : p.Before q) : p ≠ q := by
  rintro rfl
  exact Before.irrefl p h

/-- The order is total: the walk comes to one of two paths first. -/
theorem before_or_eq_or_before (p q : Path) : p.Before q ∨ p = q ∨ q.Before p := by
  rw [before_iff_lex, before_iff_lex]
  exact trichotomous_of (List.Lex (· < ·)) p q

/-- A path is before all that it is on the way to. -/
theorem before_append (p : Path) (i : Nat) (q : Path) : p.Before (p ++ i :: q) := by
  induction p with
  | nil => exact trivial
  | cons j p ih => exact .inr ⟨rfl, ih⟩

/-- Nothing is between a part and the gap in front of its own first part. -/
theorem before_concat_zero : r.Before (p ++ [0]) ↔ r.Before p ∨ r = p := by
  induction p generalizing r with
  | nil =>
    cases r with
    | nil => simp
    | cons j r => simp
  | cons i p ih =>
    cases r with
    | nil => simp
    | cons j r =>
      rw [List.cons_append, cons_before_cons, cons_before_cons, ih, List.cons.injEq]
      tauto

/-- Between two neighbouring gaps is what is between them. -/
theorem before_concat_succ {i : Nat} :
    r.Before (p ++ [i + 1]) ↔ r.Before (p ++ [i]) ∨ (p ++ [i]) <+: r := by
  induction p generalizing r with
  | nil =>
    cases r with
    | nil => simp
    | cons j r =>
      simp only [List.nil_append, cons_before_cons, not_before_nil, and_false, or_false,
        List.cons_prefix_cons, List.nil_prefix, and_true]
      omega
  | cons k p ih =>
    cases r with
    | nil => simp
    | cons j r =>
      rw [List.cons_append, List.cons_append, cons_before_cons, cons_before_cons, ih,
        List.cons_prefix_cons]
      tauto

/-- What is before the gap `p ++ [i]`: all before `p`, `p` and its first `i` parts. -/
theorem before_concat {i : Nat} :
    r.Before (p ++ [i]) ↔ r.Before p ∨ r = p ∨ ∃ j < i, p ++ [j] <+: r := by
  induction i with
  | zero => simp [before_concat_zero]
  | succ i ih =>
    rw [before_concat_succ, ih, or_assoc, or_assoc]
    refine or_congr_right (or_congr_right ?_)
    constructor
    · rintro (⟨j, hj, h⟩ | h)
      · exact ⟨j, Nat.lt_succ_of_lt hj, h⟩
      · exact ⟨i, Nat.lt_succ_self i, h⟩
    · rintro ⟨j, hj, h⟩
      obtain hj | rfl := Nat.lt_succ_iff_lt_or_eq.1 hj
      · exact .inl ⟨j, hj, h⟩
      · exact .inr h

/-- What lies between a part and something inside of it lies inside of it. -/
theorem prefix_of_before_of_before (h : p.Before r) (h' : r.Before q) (hq : p <+: q) : p <+: r := by
  induction p generalizing q r with
  | nil => exact List.nil_prefix
  | cons i p ih =>
    cases q with
    | nil => exact absurd h' (not_before_nil r)
    | cons k q =>
      cases r with
      | nil => exact absurd h (not_before_nil _)
      | cons j r =>
        obtain ⟨rfl, hpq⟩ := List.cons_prefix_cons.1 hq
        obtain hij | ⟨rfl, h⟩ := h
        · obtain hji | ⟨rfl, -⟩ := h'
          · exact absurd hij (Nat.lt_asymm hji)
          · exact absurd hij (Nat.lt_irrefl _)
        · obtain hii | ⟨-, h'⟩ := h'
          · exact absurd hii (Nat.lt_irrefl _)
          · exact List.cons_prefix_cons.2 ⟨rfl, ih h h' hpq⟩

/-! ### The way to a path -/

/-- The paths on the way to a path, from the innermost out. -/
def above (p : Path) : List Path := ((List.range p.length).map p.take).reverse

/-- The way to a part of `p` is the way to `p`, and `p`. -/
@[simp]
theorem above_concat (p : Path) (i : Nat) : above (p ++ [i]) = p :: p.above := by
  unfold above
  rw [List.length_append, List.length_singleton, List.range_succ, List.map_append,
    List.reverse_append]
  refine congrArg₂ List.cons (List.take_left' rfl) (congrArg List.reverse ?_)
  refine List.map_congr_left fun k hk => ?_
  exact List.take_append_of_le_length (List.mem_range.1 hk).le

/-- The paths on the way to `p` are its proper prefixes. -/
theorem mem_above_iff : q ∈ p.above ↔ q <+: p ∧ q ≠ p := by
  induction p using List.reverseRecOn with
  | nil => simp [above]
  | append_singleton p i ih =>
    rw [above_concat, List.mem_cons, ih, List.prefix_concat_iff]
    constructor
    · rintro (rfl | ⟨h, -⟩)
      · exact ⟨.inr (List.prefix_refl q), by simp⟩
      · refine ⟨.inr h, fun heq => ?_⟩
        have hlength := h.length_le
        rw [heq, List.length_append, List.length_singleton] at hlength
        omega
    · rintro ⟨rfl | h, hne⟩
      · exact absurd rfl hne
      · exact (eq_or_ne q p).imp_right fun hqp => ⟨h, hqp⟩

/-- The walk comes to all on the way to `p` before it comes to `p`. -/
theorem before_of_mem_above (h : q ∈ p.above) : q.Before p := by
  obtain ⟨⟨s, rfl⟩, hne⟩ := mem_above_iff.1 h
  cases s with
  | nil => exact absurd (List.append_nil q).symm hne
  | cons i s => exact before_append q i s

/-- No path is on the way twice. -/
theorem nodup_above (p : Path) : p.above.Nodup := by
  induction p using List.reverseRecOn with
  | nil => exact List.nodup_nil
  | append_singleton p i ih =>
    rw [above_concat]
    exact List.nodup_cons.2 ⟨fun h => (mem_above_iff.1 h).2 rfl, ih⟩

end Path

/-! ### Parts at paths -/

namespace Node

variable {root n m : Node} {p q r : Path} {i : Nat}

/-- The part at `p ++ q` is the one at `q` in what is at `p`. -/
theorem at?_append (root : Node) (p q : Path) :
    root.at? (p ++ q) = (root.at? p).bind (at? · q) := by
  induction p generalizing root with
  | nil => rfl
  | cons i p ih =>
    rw [List.cons_append, at?, at?, Option.bind_assoc]
    exact congrArg _ (funext fun m => ih m)

/-- The part at `p ++ [i]` is the `i`-th of what is at `p`. -/
theorem at?_concat (root : Node) (p : Path) (i : Nat) :
    root.at? (p ++ [i]) = (root.at? p).bind (·.children[i]?) := by
  rw [at?_append]
  refine congrArg _ (funext fun n => ?_)
  show n.children[i]?.bind some = _
  cases n.children[i]? <;> rfl

/-- What is on the way to a part is a part, and has a part there. -/
theorem exists_at?_of_prefix (hp : root.at? p = some n) (h : q <+: p) :
    ∃ m, root.at? q = some m := by
  obtain ⟨s, rfl⟩ := h
  rw [at?_append] at hp
  obtain ⟨m, hm, -⟩ := Option.bind_eq_some_iff.1 hp
  exact ⟨m, hm⟩

/-- What is on the way to a part has a part in that direction. -/
theorem getElem?_children_of_prefix (hp : root.at? p = some n) (h : q ++ [i] <+: p)
    (hq : root.at? q = some m) : ∃ c, m.children[i]? = some c := by
  obtain ⟨c, hc⟩ := exists_at?_of_prefix hp h
  rw [at?_concat, hq] at hc
  exact ⟨c, hc⟩

/-- Behind the last part of something is all that is inside of it. -/
theorem before_concat_length (hr : (root.at? r).isSome = true) (hp : root.at? p = some n) :
    r.Before (p ++ [n.children.length]) ↔ r.Before p ∨ p <+: r := by
  rw [Path.before_concat]
  refine or_congr_right ⟨?_, fun h => ?_⟩
  · rintro (rfl | ⟨i, -, hi⟩)
    · exact List.prefix_refl r
    · exact (List.prefix_append p [i]).trans hi
  · obtain ⟨s, rfl⟩ := h
    cases s with
    | nil => exact .inl (List.append_nil p)
    | cons i s =>
      obtain ⟨m, hm⟩ := Option.isSome_iff_exists.1 hr
      have hi : p ++ [i] <+: p ++ i :: s := ⟨s, by simp⟩
      obtain ⟨c, hc⟩ := getElem?_children_of_prefix hm hi hp
      exact .inr ⟨i, (List.getElem?_eq_some_iff.1 hc).1, hi⟩

/-! ### What a path is inside of -/

/-- A part of a tree with a scope of its own. -/
def opensScope : Node → Bool
  | .stmt (.block _) => true
  | .stmt (.classDecl _ _) => true
  | .function _ _ => true
  | _ => false

def isClass : Node → Bool
  | .stmt (.classDecl _ _) => true
  | _ => false

/-- The kind of body that a function has. -/
def bodyKind? : Node → Option Body
  | .function kind _ => some kind
  | _ => none

/-- The local scopes around a path, from the innermost out: each is told by the path of what it was
    opened for. -/
def scopesAt (root : Node) (p : Path) : List Path :=
  p.above.filter fun q => (root.at? q).any opensScope

/-- Whether a path is inside of a class. -/
def inClassAt (root : Node) (p : Path) : Bool :=
  p.above.any fun q => (root.at? q).any isClass

/-- The kind of the innermost function around a path. -/
def bodyAt (root : Node) (p : Path) : Body :=
  (p.above.findSome? fun q => (root.at? q).bind bodyKind?).getD .topLevel

/-- `scopesAt` one step down: what opens a scope adds its own path. -/
theorem scopesAt_concat (hp : root.at? p = some n) (i : Nat) :
    root.scopesAt (p ++ [i]) = if n.opensScope then p :: root.scopesAt p else root.scopesAt p := by
  unfold scopesAt
  rw [Path.above_concat, List.filter_cons, hp, Option.any_some]

/-- `inClassAt` one step down. -/
theorem inClassAt_concat (hp : root.at? p = some n) (i : Nat) :
    root.inClassAt (p ++ [i]) = (n.isClass || root.inClassAt p) := by
  unfold inClassAt
  rw [Path.above_concat, List.any_cons, hp, Option.any_some]

/-- `bodyAt` one step down: a function is the innermost one for its parts. -/
theorem bodyAt_concat (hp : root.at? p = some n) (i : Nat) :
    root.bodyAt (p ++ [i]) = n.bodyKind?.getD (root.bodyAt p) := by
  unfold bodyAt
  rw [Path.above_concat, List.findSome?_cons, hp, Option.bind_some]
  cases n.bodyKind? <;> rfl

/-- A scope around `p` was opened on the way to `p`. -/
theorem mem_above_of_mem_scopesAt (h : q ∈ root.scopesAt p) : q ∈ p.above :=
  List.mem_of_mem_filter h

/-- A scope around `p` was opened before the walk comes to `p`. -/
theorem before_of_mem_scopesAt (h : q ∈ root.scopesAt p) : q.Before p :=
  Path.before_of_mem_above (mem_above_of_mem_scopesAt h)

/-- Scopes are told apart by their paths. -/
theorem nodup_scopesAt (root : Node) (p : Path) : (root.scopesAt p).Nodup :=
  (Path.nodup_above p).filter _

end Node

end Scriptlet
