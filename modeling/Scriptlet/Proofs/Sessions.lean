import Scriptlet.Proofs.Built
import Scriptlet.Proofs.Preservation

namespace Scriptlet

/-!
# Sessions keep environments and scopes together

* `Session.Sound` — a session between two requests.
* `Session.After.sound` — every session that comes out of requests is sound.
* `Session.Moment.sound` — so is every state that is passed on the way.
-/

/-! ### Programs -/

/-- A part of a program that stands in no scope. -/
def History.AtTop (h : History) (n : Node) : Prop := ∃ v, v.node = n ∧ h.Knows v ∧ v.site = []

section Programs

variable {h : History} {host : Host} {m m' : Machine} {alone : Bool}

variable {s : Stmt} {ss : List Stmt} {n : Node} {t : State} {fuel : Nat}

theorem History.AtTop.first (ht : h.AtTop (.stmts (s :: ss))) : h.AtTop (.stmt s) := by
  obtain ⟨⟨w, site, n⟩, rfl, hknown, rfl⟩ := ht
  exact ⟨_, rfl, hknown.child (.part .statement), rfl⟩

theorem History.AtTop.rest (ht : h.AtTop (.stmts (s :: ss))) : h.AtTop (.stmts ss) := by
  obtain ⟨⟨w, site, n⟩, rfl, hknown, rfl⟩ := ht
  exact ⟨_, rfl, hknown.child .rest, rfl⟩

theorem History.AtTop.extend (ht : h.AtTop n) (made : List Making) : (h.extend made).AtTop n := ht

/-- What stands in no scope can go on in the globals. -/
theorem Machine.Sound.ready_top (hm : m.Sound h) (ht : h.AtTop n) :
    n.Ready ⟨h, m.store⟩ [] Machine.globals := by
  obtain ⟨v, hv, hknown, hsite⟩ := ht
  -- The globals are no scope of the walk, so there is no name to be held.
  refine ⟨v, hv, hknown, by rw [hsite]; exact .globals, fun j scope x name hj _ => ?_⟩
  have howners : v.walk.owners = [] := by
    have hlevel := (hm.lawful.visit hknown).level
    rw [hsite] at hlevel
    exact List.eq_nil_of_length_eq_zero hlevel
  rw [howners] at hj
  cases hj

/-- A statement starts in a sound state. -/
theorem Machine.Sound.begin (alone : Bool) (hm : m.Sound h) (henv : m.env = Machine.globals)
    (ht : h.AtTop (.stmt s)) : (m.begin alone s).Sound h := by
  have hready : (Node.stmt s).Ready ⟨h, m.store⟩ [] m.env := by
    rw [henv]
    exact hm.ready_top ht
  unfold Machine.begin
  split
  · exact ⟨hm, hready.part hm.lawful fun _ => ⟨_, .evaluated⟩, henv⟩
  · exact ⟨hm, hready, henv⟩

theorem State.Sound.machine (ht : t.Sound h) : t.machine.Sound h := by
  cases t with
  | eval | exec | value | flow | failed => exact ht.1
  | desync => exact ht

/-- Where a run ends without a variable out of place, the globals are the environment. -/
theorem State.Sound.env_of_isFinal (ht : t.Sound h) (hfinal : t.isFinal = true)
    (hdesync : t.isDesync = false) : t.machine.env = Machine.globals := by
  cases t with
  | eval | exec => cases hfinal
  | value v k m =>
    cases k with
    | done => exact ht.2.2
    | _ => cases hfinal
  | flow f k m =>
    cases k with
    | done => exact ht.2.2
    | _ => cases hfinal
  | failed e m => exact ht.2
  | desync d m => cases hdesync

/-- The machine behind a statement. -/
theorem Machine.Sound.finish (hm : m.Sound h) (henv : m.env = Machine.globals)
    (ht : h.AtTop (.stmt s)) (hrun : runSteps host fuel (m.begin alone s) = some t) :
    t.machine.Sound (h.extend ((m.begin alone s).makesIn host fuel)) ∧
      (t.isDesync = false → t.machine.env = Machine.globals) := by
  obtain ⟨rfl, hfinal⟩ := eq_iterate_of_runSteps hrun
  have hsound := (hm.begin alone henv ht).steps host fuel
  exact ⟨hsound.machine, hsound.env_of_isFinal hfinal⟩

/-- The machine with which the next statement starts. -/
theorem Machine.Sound.goOn (hm : m.Sound h) (henv : m.env = Machine.globals)
    (ht : h.AtTop (.stmt s)) (hnext : m.goOn host fuel alone s = some m') :
    m'.Sound (h.extend ((m.begin alone s).makesIn host fuel)) ∧ m'.env = Machine.globals := by
  obtain ⟨t, hrun, rfl, hdesync⟩ := Machine.runSteps_of_goOn hnext
  exact (hm.finish henv ht hrun).imp_right fun henv' => henv' hdesync

/-- Every state that a program passes is sound. -/
theorem Machine.Passes.sound {programs : List Visit} {made made' : List Making}
    (hp : Machine.Passes host alone ss m made t made') (hm : m.Sound ⟨programs, made⟩)
    (henv : m.env = Machine.globals) (ht : History.AtTop ⟨programs, made⟩ (.stmts ss)) :
    t.Sound ⟨programs, made'⟩ := by
  induction hp with
  | now n => exact (hm.begin alone henv ht.first).steps host n
  | later fuel hnext _ ih =>
    obtain ⟨hm', henv'⟩ := hm.goOn henv ht.first hnext
    exact ih hm' henv' (ht.rest.extend _)

/-- The machine behind a program. -/
theorem Machine.Finishes.sound (hp : m.Finishes host fuel alone ss t) (hm : m.Sound h)
    (henv : m.env = Machine.globals) (ht : h.AtTop (.stmts ss)) :
    t.machine.Sound (h.extend (m.makesBy host fuel alone ss)) ∧
      (t.isDesync = false → t.machine.env = Machine.globals) := by
  induction hp generalizing h with
  | nil =>
    rw [Machine.makesBy, History.extend_nil]
    exact ⟨hm, fun _ => henv⟩
  | last hrun hend =>
    rw [Machine.makesBy, hend, List.append_nil]
    exact hm.finish henv ht.first hrun
  | next hnext _ ih =>
    rw [Machine.makesBy, hnext, ← History.extend_extend]
    obtain ⟨hm', henv'⟩ := hm.goOn henv ht.first hnext
    exact ih hm' henv' (ht.rest.extend _)

end Programs

/-! ### Reading a source -/

/-- A program was read. -/
def History.read (h : History) (program : Visit) : History := ⟨h.programs ++ [program], h.made⟩

theorem History.knows_read {h : History} {program v : Visit} :
    (h.read program).Knows v ↔ h.Knows v ∨ program.Below v := by
  constructor
  · rintro ⟨p, hp, hv⟩
    rcases List.mem_append.1 hp with hp | hp
    · exact .inl ⟨p, hp, hv⟩
    · cases List.mem_singleton.1 hp
      exact .inr hv
  · rintro (⟨p, hp, hv⟩ | hv)
    · exact ⟨p, List.mem_append_left _ hp, hv⟩
    · exact ⟨program, List.mem_append_right _ (List.mem_singleton_self _), hv⟩

/-- A session between two requests. -/
structure Session.Sound (h : History) (s : Session) : Prop where
  machine : s.machine.Sound h
  env : s.machine.env = Machine.globals
  /-- The nodes of programs have numbers that were given out. -/
  ids : ∀ p ∈ h.programs, ∀ i ∈ p.node.ids, i < s.nextNode

section Reading

variable {h : History} {s : Session}

/-- Reading gives a program its numbers, all of them new. -/
theorem Session.program_spec (s : Session) (source : String) :
    (s.program source).Lawful Token.Spelled ∧
      (∀ i ∈ (s.program source).node.ids, s.nextNode ≤ i ∧ i < (s.parse source).2.nextNode) ∧
      s.nextNode ≤ (s.parse source).2.nextNode := by
  obtain ⟨hformed, ⟨hnodup, hrange⟩, hle⟩ := Program.built_parse (Token.ofSource source) s.nextNode
    (Session.lexicalReport source) (Token.spelled_ofSource source)
  exact ⟨Visit.Lawful.start hformed hnodup, hrange, hle⟩

/-- Reading a source keeps `Session.Sound.ids`: the numbers of the program are below the new
    `nextNode`, as those of the older `programs` are. -/
theorem Session.ids_read {programs : List Visit}
    (hids : ∀ p ∈ programs, ∀ i ∈ p.node.ids, i < s.nextNode) (source : String) :
    ∀ p ∈ programs ++ [s.program source], ∀ i ∈ p.node.ids, i < (s.parse source).2.nextNode := by
  obtain ⟨-, hrange, hle⟩ := s.program_spec source
  intro p hp i hi
  rcases List.mem_append.1 hp with hp | hp
  · exact Nat.lt_of_lt_of_le (hids p hp i hi) hle
  · cases List.mem_singleton.1 hp
    exact (hrange i hi).2

/-- Reading and resolving a token list leaves the entries of smaller numbers alone. -/
theorem Session.depths_analyzeTokens_of_lt (s : Session) (tokens : List Token) (report : Report)
    {i : NodeId} (hi : i < s.nextNode) :
    (s.analyzeTokens tokens report).2.machine.depths[i]? = s.machine.depths[i]? := by
  obtain ⟨-, hnumbered, -⟩ :=
    Program.built_parse (T := fun _ => True) tokens s.nextNode report fun _ _ => trivial
  exact Walk.depths_stmts _ _ fun hmem => absurd (hnumbered.2 i hmem).1 (Nat.not_le.2 hi)

/-- A program is read, and depths are recorded for its nodes only. -/
theorem Session.Sound.read (hs : s.Sound h) (source : String) {depths : Depths}
    (hold : ∀ i, i ∉ (s.program source).node.ids → depths[i]? = s.machine.depths[i]?)
    (hnew : ∀ v id name d, (s.program source).Below v → v.node.Refers id name →
      depths[id]? = some d → v.walk.depth? name.lexeme = some d) :
    Session.Sound (h.read (s.program source))
      ⟨{ s.machine with depths }, (s.parse source).2.nextNode⟩ := by
  obtain ⟨hlawful, hrange, -⟩ := s.program_spec source
  have hscene : Scene.Le ⟨h, s.machine.store⟩ ⟨h.read (s.program source), s.machine.store⟩ :=
    ⟨fun p hp => List.mem_append_left _ hp, fun e he => he, fun f x hx => hx⟩
  refine ⟨⟨?_, hscene.store hs.machine.store, ?_, ?_, hs.machine.size, hs.machine.numbered,
    hs.machine.natives⟩, hs.env, Session.ids_read hs.ids source⟩
  · intro p hp
    rcases List.mem_append.1 hp with hp | hp
    · exact hs.machine.lawful p hp
    · cases List.mem_singleton.1 hp
      exact hlawful
  · intro v id name d hv hrefers hd
    rcases History.knows_read.1 hv with ⟨p, hp, hbelow⟩ | hv
    · -- the numbers of older programs are smaller than those of this one
      have hid : id < s.nextNode :=
        hs.ids p hp id ((Visit.Below.ids hbelow).subset hrefers.mem_ids)
      rw [hold id fun hmem => absurd (hrange id hmem).1 (Nat.not_le.2 hid)] at hd
      exact hs.machine.recorded v id name d ⟨p, hp, hbelow⟩ hrefers hd
    · exact hnew v id name d hv hrefers hd
  · intro i d hd
    by_cases hi : i ∈ (s.program source).node.ids
    · exact ⟨_, List.mem_append_right _ (List.mem_singleton_self _), hi⟩
    · rw [hold i hi] at hd
      obtain ⟨p, hp, hmem⟩ := hs.machine.keys i d hd
      exact ⟨p, List.mem_append_left _ hp, hmem⟩

/-- New numbers have no depth yet. -/
theorem Session.Sound.fresh (hs : s.Sound h) {source : String} {i : NodeId}
    (hi : i ∈ (s.program source).node.ids) : s.machine.depths[i]? = none := by
  have hle := ((s.program_spec source).2.1 i hi).1
  cases hd : s.machine.depths[i]? with
  | none => rfl
  | some d =>
    obtain ⟨p, hp, hmem⟩ := hs.machine.keys i d hd
    exact absurd (hs.ids p hp i hmem) (Nat.not_lt.2 hle)

theorem Session.Sound.parse (hs : s.Sound h) (source : String) :
    (s.parse source).2.Sound (h.read (s.program source)) := by
  -- Without the walk, nothing is recorded for the nodes of the program.
  refine hs.read source (fun _ _ => rfl) fun v id name d hv hrefers hd => ?_
  rw [hs.fresh ((Visit.Below.ids hv).subset hrefers.mem_ids)] at hd
  cases hd

theorem Session.Sound.analyze (hs : s.Sound h) (source : String) :
    (s.analyze source).2.Sound (h.read (s.program source)) := by
  refine hs.read source (fun i hi => Walk.depths_stmts _ _ hi) fun v id name d hv hrefers hd => ?_
  exact Visit.depth?_of_recorded hv (s.program_spec source).1 hrefers
    (hs.fresh ((Visit.Below.ids hv).subset hrefers.mem_ids)) hd

theorem History.atTop_program (h : History) (s : Session) (source : String) :
    (h.read (s.program source)).AtTop (.stmts (s.parse source).1.statements) :=
  ⟨_, rfl, History.knows_read.2 (.inr (Visit.Below.refl _)), rfl⟩

end Reading

/-! ### Requests -/

section Requests

variable {h : History} {host : Host} {sink : Sink} {s s' : Session} {r : Request}

theorem Machine.sound_new (sink : Sink) : (Machine.new sink).Sound ⟨[], []⟩ := by
  refine ⟨fun p hp => absurd hp List.not_mem_nil, ⟨?_, ?_⟩, ?_, ?_, ?_, ?_, ?_⟩
  · intro f x v hv
    rcases Store.eq_or_get?_of_define hv with rfl | hv
    · trivial
    · rw [Store.get?_newFrame] at hv
      cases hv
  · intro id x v hv
    cases hv
  · rintro v id name d ⟨p, hp, -⟩
    exact absurd hp List.not_mem_nil
  · intro i d hd
    cases hd
  · exact (Store.size_define _ _ _ _).trans (Store.size_newFrame _)
  · intro i e he
    cases he
  · intro n hn
    cases Array.mem_singleton.1 hn
    trivial

theorem Session.sound_new (sink : Sink) : (Session.new sink).Sound ⟨[], []⟩ :=
  ⟨Machine.sound_new sink, rfl, fun _ hp => absurd hp List.not_mem_nil⟩

/-- What a request runs can go on in the globals. -/
theorem Session.Sound.job (hs : s.Sound h) {job : Job} (hj : r.job? s = some job) :
    let h' : History := ⟨h.programs ++ (r.program? s).toList, h.made⟩
    job.machine.Sound h' ∧ job.machine.env = Machine.globals ∧
      h'.AtTop (.stmts job.statements) := by
  obtain ⟨source, hprogram, hstatements, hmachine⟩ := Request.job_cases hj
  rw [hprogram, hstatements]
  obtain hmachine | ⟨-, hmachine⟩ := hmachine
  · rw [hmachine]
    exact ⟨(hs.analyze source).machine, (hs.analyze source).env, h.atTop_program s source⟩
  · rw [hmachine]
    exact ⟨(hs.parse source).machine, (hs.parse source).env, h.atTop_program s source⟩

/-- A function of the host is defined. -/
theorem Session.Sound.defineNative (hs : s.Sound h) {native : Native} (hnative : native.Honest) :
    (s.defineNative native).Sound h := by
  have hm := hs.machine.defineIn 0 native.name (v := .native s.machine.natives.size) trivial
  refine ⟨⟨hm.lawful, hm.store, hm.recorded, hm.keys, hm.size, hm.numbered, ?_⟩, hs.env, hs.ids⟩
  intro n hn
  rcases Array.mem_push.1 hn with hn | rfl
  · exact hs.machine.natives n hn
  · exact hnative

/-- A request that lets the session go on leaves it sound. -/
theorem Session.Sound.perform (hs : s.Sound h) (hnative : r.DefinesOnly Native.Honest)
    {fuel : Nat} (hr : r.perform host fuel s = some (true, s')) :
    s'.Sound ⟨h.programs ++ (r.program? s).toList, h.made ++ r.makes host fuel s⟩ := by
  obtain ⟨job, t, source, hj, hfinishes, hgoesOn, hmachine, hprogram, hnode⟩ |
    ⟨source, hj, hprogram, -, rfl⟩ | ⟨n, rfl, -, rfl⟩ := Request.perform_cases hr
  · obtain ⟨hm, henv, htop⟩ := hs.job hj
    obtain ⟨hm', henv'⟩ := hfinishes.sound hm henv htop
    have hids := (hs.parse source).ids
    rw [Request.makes, hj]
    refine ⟨?_, ?_, by rw [hnode, hprogram]; exact hids⟩
    · obtain hmachine | hmachine := hmachine
      · rw [hmachine]
        exact hm'
      · exact hm'.congr (by rw [hmachine]) (by rw [hmachine]) (by rw [hmachine])
    · obtain hmachine | hmachine := hmachine
      · rw [hmachine]
        exact henv' (by simpa using hgoesOn.symm)
      · rw [hmachine]
  · rw [Request.makes, hj, hprogram, List.append_nil]
    exact hs.analyze source
  · rw [Request.makes, Request.job?, Request.program?, Option.toList_none, List.append_nil,
      List.append_nil]
    exact hs.defineNative hnative

theorem Session.Sound.takeOutput (hs : s.Sound h) : s.takeOutput.2.Sound h :=
  ⟨hs.machine.congr rfl rfl rfl, hs.env, hs.ids⟩

/-- **Sessions are sound.** Whatever was asked of a session before. -/
theorem Session.After.sound {rs : List Request} (hs : Session.After host sink rs s h)
    (hnatives : ∀ r ∈ rs, r.DefinesOnly Native.Honest) : s.Sound h := by
  induction hs with
  | new => exact Session.sound_new sink
  | next _ hr ih =>
    obtain ⟨hbefore, hlast⟩ := List.forall_mem_append.1 hnatives
    exact ((ih hbefore).perform (hlast _ (List.mem_singleton_self _)) hr).takeOutput

/-- `Session.Sound.ids` holds of every session, whatever the functions of the host yield. -/
theorem Session.After.ids_lt {rs : List Request} (hs : Session.After host sink rs s h) :
    ∀ p ∈ h.programs, ∀ i ∈ p.node.ids, i < s.nextNode := by
  induction hs with
  | new => exact fun _ hp => absurd hp List.not_mem_nil
  | @next rs s h r s' fuel _ hr ih =>
    show ∀ p ∈ h.programs ++ (r.program? s).toList, ∀ i ∈ p.node.ids, i < s'.nextNode
    obtain ⟨-, -, source, -, -, -, -, hprogram, hnode⟩ | ⟨source, -, hprogram, -, rfl⟩ |
      ⟨n, rfl, -, rfl⟩ := Request.perform_cases hr
    · rw [hprogram, hnode]
      exact Session.ids_read ih source
    · rw [hprogram]
      exact Session.ids_read ih source
    · rw [Request.program?, Option.toList_none, List.append_nil]
      exact ih

/-- **Moments are sound.** Every state that is passed while a request is performed. -/
theorem Session.Moment.sound {rs : List Request} {t : State}
    (ht : Session.Moment host sink rs t h) (hnatives : ∀ r ∈ rs, r.DefinesOnly Native.Honest) :
    t.Sound h := by
  obtain ⟨hs, hj, hp⟩ := ht
  obtain ⟨hm, henv, htop⟩ := (hs.sound (List.forall_mem_append.1 hnatives).1).job hj
  exact hp.sound hm henv htop

end Requests

end Scriptlet
