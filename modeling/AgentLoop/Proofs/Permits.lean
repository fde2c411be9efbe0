import AgentLoop.Proofs.Memory

/-!
# The pool of permits

An invocation is inside from the moment it is given a permit until its run is over or cut, which is when the permit
goes to the first in the queue or back into the pool.  Guard, hooks before the start, store, retriever, model and tools
are called from inside only.  At every moment the permits in the pool and those that are held are all the permits there
are, so there are never more inside than permits, and when nobody is inside the pool is full.
-/

namespace AgentLoop

namespace Stage

/-- Before a permit is given: not started, or in the queue. -/
def isAhead : Stage → Bool
  | dormant | queued => true
  | _ => false

/-- With a permit. -/
def isInside : Stage → Bool
  | granted .. | running _ => true
  | _ => false

/-- After the run, whatever it has come to. -/
def isPast : Stage → Bool
  | closing .. | marking .. | finished .. | broken .. => true
  | _ => false

private theorem isPast_of_rank_le {stage : Stage} (h : stage.rank ≤ 3) : stage.isPast := by
  rcases stage with _ | _ | _ | ⟨_ | _⟩ | _ <;> first | rfl | simp [rank] at h

private theorem isInside_of_isPast {stage : Stage} (h : stage.isPast) : stage.isInside = false := by
  cases stage <;> first | rfl | cases h

private theorem isInside_of_isAhead {stage : Stage} (h : stage.isAhead) : stage.isInside = false := by
  cases stage <;> first | rfl | cases h

end Stage

/-- What a service knows about its permits: those that nobody holds, who waits for one, and how far each invocation
has come. -/
structure Pool where
  free : Nat
  queue : List Nat
  stages : List Stage

def Service.pool (s : Service) : Pool := ⟨s.free, s.queue, s.stages⟩

namespace Pool

/-- How many are inside. -/
def inside (p : Pool) : Nat := p.stages.countP (·.isInside)

def put (p : Pool) (place : Nat) (stage : Stage) : Pool := { p with stages := p.stages.set place stage }

/-- One invocation is in another stage, and nothing else is different. -/
def Puts (place : Nat) (stages : Stage → Prop) (p q : Pool) : Prop := ∃ stage, stages stage ∧ q = p.put place stage

/-- One permit comes back: to the others that nobody holds if nobody waits for it, and else to the first in the
queue. -/
inductive Returned : Pool → Pool → Prop where
  | freed {free : Nat} {stages : List Stage} : Returned ⟨free, [], stages⟩ ⟨free + 1, [], stages⟩
  | passed {free first due lap : Nat} {rest : List Nat} {stages : List Stage} (hw : stages[first]? = some .queued) :
    Returned ⟨free, first :: rest, stages⟩ ⟨free, rest, stages.set first (.granted due lap)⟩

/-- An invocation gives its permit back and is inside no more. -/
inductive Leaves (place : Nat) (p q : Pool) : Prop where
  | intro {r : Pool} (hr : Returned p r) (hq : Puts place (·.isPast) r q)

/-- An invocation keeps its permit, or gives it back. -/
inductive Exits (place : Nat) (p q : Pool) : Prop where
  | stays (h : Puts place (·.isInside) p q)
  | leaves (h : Leaves place p q)

/-- What a step of an invocation does to the permits, by whether its run goes on in it. -/
inductive Passage (place : Nat) (stage : Stage) (p q : Pool) : Bool → Prop where
  /-- There is no permit, -/
  | queues (hs : stage = .dormant) (hf : p.free = 0)
    (hq : q = { p with queue := p.queue ++ [place] }.put place .queued) : Passage place stage p q false
  /-- or it is cut before it is given one, -/
  | turnsAway (hs : stage.isAhead) (hq : Puts place (·.isPast) { p with queue := p.queue.filter (· != place) } q) :
    Passage place stage p q false
  /-- or it takes one and goes on. -/
  | enters (hs : stage = .dormant) (hf : 0 < p.free) (h : Exits place { p with free := p.free - 1 } q) :
    Passage place stage p q true
  | goesOn (hs : stage.isInside) (h : Exits place p q) : Passage place stage p q true
  | cut (hs : stage.isInside) (h : Leaves place p q) : Passage place stage p q false
  | closes (hs : stage.isPast) (h : Puts place (·.isPast) p q) : Passage place stage p q false

/-- The queue holds those who wait, each once, and nobody waits while there are permits that nobody holds. -/
structure Lined (p : Pool) : Prop where
  queued {place : Nat} : place ∈ p.queue ↔ p.stages[place]? = some .queued
  nodup : p.queue.Nodup
  empty (h : 0 < p.free) : p.queue = []

/-- All permits are there, some of them held by those inside. -/
structure Balanced (permits : Nat) (p : Pool) : Prop extends Lined p where
  sum : p.free + p.inside = permits

/-! ### Nothing is lost -/

variable {p q : Pool} {place permits : Nat} {stage stage' : Stage} {runs : Bool}

private theorem lined_free {free : Nat} (h : p.Lined) (hf : free ≤ p.free) : Lined { p with free } :=
  ⟨h.queued, h.nodup, fun hpos => h.empty (Nat.lt_of_lt_of_le hpos hf)⟩

/-- One stage more and one less. -/
private theorem inside_put (hi : p.stages[place]? = some stage) (stage' : Stage) :
    (p.put place stage').inside + (if stage.isInside then 1 else 0) =
      p.inside + (if stage'.isInside then 1 else 0) := by
  obtain ⟨hlt, hstage⟩ := List.getElem?_eq_some_iff.1 hi
  have hset := List.countP_set (p := (·.isInside)) (a := stage') hlt
  have hpos : stage.isInside = true → 0 < p.stages.countP (·.isInside) := fun h =>
    List.countP_pos_iff.2 ⟨stage, hstage ▸ List.getElem_mem hlt, h⟩
  rw [hstage] at hset
  rw [inside, put, hset, inside]
  split
  · have := hpos ‹_›
    omega
  · omega

private theorem Lined.put (h : p.Lined) (hi : p.stages[place]? = some stage) (hs : stage ≠ .queued)
    (hs' : stage' ≠ .queued) :
    (p.put place stage').Lined where
  queued {j} := by
    rw [Pool.put, h.queued]
    by_cases hj : place = j
    · subst hj
      rw [hi, List.getElem?_set_self (List.getElem?_eq_some_iff.1 hi).1]
      simp [hs, hs']
    · rw [List.getElem?_set_ne hj]
  nodup := h.nodup
  empty := h.empty

private theorem Returned.sum (h : Returned p q) : q.free + q.inside = p.free + p.inside + 1 := by
  cases h with
  | freed => exact Nat.add_right_comm ..
  | @passed free first due lap rest stages hw =>
    have : inside ⟨free, rest, stages.set first (.granted due lap)⟩ + 0 = inside ⟨free, rest, stages⟩ + 1 :=
      inside_put (p := ⟨free, rest, stages⟩) hw (.granted due lap)
    show free + inside ⟨free, rest, stages.set first (.granted due lap)⟩ = free + inside ⟨free, rest, stages⟩ + 1
    omega

/-- Only who waits is given a permit. -/
private theorem Returned.getElem?_stages (h : Returned p q) (hi : p.stages[place]? = some stage)
    (hs : stage ≠ .queued) :
    q.stages[place]? = some stage := by
  cases h with
  | freed => exact hi
  | @passed _ first _ _ _ stages hw =>
    have hne : first ≠ place := fun heq => hs (Option.some.inj (hi.symm.trans (heq ▸ hw)))
    exact (List.getElem?_set_ne hne).trans hi

private theorem Returned.lined (h : Returned p q) (hl : p.Lined) : q.Lined := by
  cases h with
  | freed => exact ⟨hl.queued, .nil, fun _ => rfl⟩
  | @passed free first due lap rest stages hw =>
    have hnodup : (first :: rest).Nodup := hl.nodup
    refine ⟨fun {j} => ?_, hnodup.of_cons, fun hpos => nomatch hl.empty hpos⟩
    have hj : j ∈ first :: rest ↔ stages[j]? = some .queued := hl.queued
    show j ∈ rest ↔ (stages.set first (.granted due lap))[j]? = some .queued
    by_cases heq : first = j
    · subst heq
      rw [List.getElem?_set_self (List.getElem?_eq_some_iff.1 hw).1]
      simpa using (List.nodup_cons.1 hnodup).1
    · rw [List.getElem?_set_ne heq, ← hj]
      simp [Ne.symm heq]

private theorem ne_queued_of_isInside (h : stage.isInside) : stage ≠ .queued := by
  rintro rfl
  cases h

private theorem ne_queued_of_isPast (h : stage.isPast) : stage ≠ .queued := by
  rintro rfl
  cases h

private theorem ne_queued_of_dormant (h : stage = .dormant) : stage ≠ .queued := by
  rintro rfl
  cases h

private theorem Leaves.lined (h : Leaves place p q) (hl : p.Lined) (hi : p.stages[place]? = some stage)
    (hs : stage ≠ .queued) :
    q.Lined := by
  obtain ⟨hr, stage', hpast, rfl⟩ := h
  exact (hr.lined hl).put (hr.getElem?_stages hi hs) hs (ne_queued_of_isPast hpast)

/-- Whoever gives a permit back was inside with it, or had taken it just before. -/
private theorem Leaves.sum (h : Leaves place p q) (hi : p.stages[place]? = some stage) (hs : stage ≠ .queued) :
    q.free + q.inside + (if stage.isInside then 1 else 0) = p.free + p.inside + 1 := by
  obtain ⟨hr, stage', hpast, rfl⟩ := h
  have hset := inside_put (hr.getElem?_stages hi hs) stage'
  rw [Stage.isInside_of_isPast hpast, if_neg Bool.false_ne_true] at hset
  rw [Nat.add_assoc, hset, Nat.add_zero]
  exact hr.sum

private theorem Exits.lined (h : Exits place p q) (hl : p.Lined) (hi : p.stages[place]? = some stage)
    (hs : stage ≠ .queued) :
    q.Lined := by
  cases h with
  | stays h =>
    obtain ⟨stage', hin, rfl⟩ := h
    exact hl.put hi hs (ne_queued_of_isInside hin)
  | leaves h => exact h.lined hl hi hs

private theorem Exits.sum (h : Exits place p q) (hi : p.stages[place]? = some stage) (hs : stage ≠ .queued) :
    q.free + q.inside + (if stage.isInside then 1 else 0) = p.free + p.inside + 1 := by
  cases h with
  | stays h =>
    obtain ⟨stage', hin, rfl⟩ := h
    have hset := inside_put hi stage'
    rw [hin, if_pos rfl] at hset
    rw [Nat.add_assoc, hset]
    rfl
  | leaves h => exact h.sum hi hs

private theorem Passage.lined (h : Passage place stage p q runs) (hl : p.Lined) (hi : p.stages[place]? = some stage) :
    q.Lined := by
  have hlt := (List.getElem?_eq_some_iff.1 hi).1
  cases h with
  | queues hs hf hq =>
    subst hq
    have hnot : place ∉ p.queue := fun hmem =>
      ne_queued_of_dormant hs (Option.some.inj (hi.symm.trans (hl.queued.1 hmem)))
    refine ⟨fun {j} => ?_, ?_, fun hpos => absurd hpos (Nat.not_lt.2 (Nat.le_of_eq hf))⟩
    · rw [put, List.mem_append, List.mem_singleton, hl.queued]
      by_cases hj : place = j
      · subst hj
        simp [List.getElem?_set_self hlt]
      · simp [List.getElem?_set_ne hj, Ne.symm hj]
    · refine List.nodup_append.2 ⟨hl.nodup, by simp, fun j hj k hk heq => hnot ?_⟩
      rwa [← List.mem_singleton.1 hk, ← heq]
  | turnsAway hs hq =>
    obtain ⟨stage', hpast, rfl⟩ := hq
    refine ⟨fun {j} => ?_, hl.nodup.filter _, fun hpos => ?_⟩
    · rw [put, List.mem_filter, hl.queued]
      by_cases hj : place = j
      · subst hj
        simp [List.getElem?_set_self hlt, ne_queued_of_isPast hpast]
      · simp [List.getElem?_set_ne hj, Ne.symm hj]
    · show p.queue.filter (· != place) = []
      rw [hl.empty hpos]
      rfl
  | enters hs hf h => exact h.lined (lined_free hl (Nat.sub_le ..)) hi (ne_queued_of_dormant hs)
  | goesOn hs h => exact h.lined hl hi (ne_queued_of_isInside hs)
  | cut hs h => exact h.lined hl hi (ne_queued_of_isInside hs)
  | closes hs h =>
    obtain ⟨stage', hpast, rfl⟩ := h
    exact hl.put hi (ne_queued_of_isPast hs) (ne_queued_of_isPast hpast)

/-- No permit is lost in a step, and none comes from nowhere. -/
private theorem Passage.sum (h : Passage place stage p q runs) (hi : p.stages[place]? = some stage) :
    q.free + q.inside = p.free + p.inside := by
  have past {queue : List Nat} (hs : stage.isInside = false) (h : Puts place (·.isPast) { p with queue } q) :
      q.free + q.inside = p.free + p.inside := by
    obtain ⟨stage', hpast, rfl⟩ := h
    have hset := inside_put (p := { p with queue }) hi stage'
    rw [hs, Stage.isInside_of_isPast hpast] at hset
    exact congrArg (p.free + ·) hset
  cases h with
  | queues hs hf hq =>
    subst hq hs
    exact congrArg (p.free + ·) (inside_put (p := { p with queue := _ }) hi .queued)
  | turnsAway hs h => exact past (Stage.isInside_of_isAhead hs) h
  | enters hs hf h =>
    subst hs
    have hsum : q.free + q.inside + 0 = p.free - 1 + p.inside + 1 := h.sum hi (by simp)
    omega
  | goesOn hs h =>
    have hsum := h.sum hi (ne_queued_of_isInside hs)
    rw [hs, if_pos rfl] at hsum
    omega
  | cut hs h =>
    have hsum := h.sum hi (ne_queued_of_isInside hs)
    rw [hs, if_pos rfl] at hsum
    omega
  | closes hs h => exact past (Stage.isInside_of_isPast hs) h

private theorem Passage.balanced (h : Passage place stage p q runs) (hb : p.Balanced permits)
    (hi : p.stages[place]? = some stage) : q.Balanced permits :=
  ⟨h.lined hb.toLined hi, (h.sum hi).trans hb.sum⟩

/-- An invocation whose run goes on has a permit for it. -/
private theorem Passage.inside_put_le (h : Passage place stage p q true) (hb : p.Balanced permits)
    (hi : p.stages[place]? = some stage) : (p.put place (.running none)).inside ≤ permits := by
  have hset := inside_put hi (.running none)
  have hin : (Stage.running none).isInside = true := rfl
  have hsum := hb.sum
  rw [hin, if_pos rfl] at hset
  cases h with
  | enters hs hf _ =>
    subst hs
    have : (p.put place (.running none)).inside + 0 = p.inside + 1 := hset
    omega
  | goesOn hs _ =>
    rw [hs, if_pos rfl] at hset
    omega

/-- One more invocation makes no difference. -/
private theorem Balanced.append (h : p.Balanced permits) :
    Balanced permits { p with stages := p.stages ++ [.dormant] } := by
  refine ⟨⟨fun {j} => ?_, h.nodup, h.empty⟩, ?_⟩
  · rw [h.queued, List.getElem?_append]
    split
    · rfl
    · rename_i hge
      rw [List.getElem?_eq_none (Nat.not_lt.1 hge)]
      cases hj : j - p.stages.length <;> simp
  · have hinside : inside { p with stages := p.stages ++ [.dormant] } = p.inside := by
      rw [inside, List.countP_append]
      rfl
    rw [hinside]
    exact h.sum

end Pool

open Pool

namespace Engine

variable {e : Engine} {s t : Service} {place : Nat} {inv : Invocation} {report : Report}

/-! ### What telling the hooks leaves alone -/

/-- A step that does not touch the permits. -/
def Spares (s t : Service) : Prop := t.free = s.free ∧ t.queue = s.queue

private theorem spares_putMark {ended : Nat} : Spares s (s.putMark place inv report ended) := by
  unfold Service.putMark
  split <;> exact ⟨rfl, rfl⟩

private theorem spares_finish : Spares s (s.finish place inv report) := by
  unfold Service.finish
  split
  · exact ⟨rfl, rfl⟩
  · exact spares_putMark
  · exact ⟨rfl, rfl⟩

private theorem spares_complete : Spares s (e.complete s place inv report) := spares_finish (s := { s with world := _ })

private theorem spares_close {limit : Nat} {rest : RunProcess Unit} :
    Spares s (e.close s place inv report limit rest) := by
  unfold close
  generalize rest.play e.partners (some s.now) ⟨s.world, inv.feed⟩ = result
  obtain ⟨stop, scene⟩ := result
  cases stop with
  | finished => exact spares_complete (s := { s with world := _ })
  | broke => exact ⟨rfl, rfl⟩
  | paused | stuck =>
    dsimp only
    split
    · exact spares_complete (s := { s with world := _ })
    · exact ⟨rfl, rfl⟩

private theorem Spares.puts {stages : Stage → Prop} (h : Spares s t) (ht : Puts place stages s t) :
    Pool.Puts place stages s.pool t.pool := by
  obtain ⟨stage, hs, ht⟩ := ht
  exact ⟨stage, hs, by rw [Service.pool, h.1, h.2, ht]; rfl⟩

private theorem Spares.puts_isPast (h : Spares s t) (ht : Puts place (·.rank ≤ 3) s t) :
    Pool.Puts place (·.isPast) s.pool t.pool :=
  h.puts (ht.mono fun _ => Stage.isPast_of_rank_le)

private theorem puts_isPast_conclude : Pool.Puts place (·.isPast) s.pool (e.conclude s place inv report).pool :=
  Spares.puts_isPast spares_close puts_conclude

private theorem pool_put {stage : Stage} : (s.put place inv stage).pool = s.pool.put place stage := by
  rw [Service.pool, stages_put]
  rfl

private theorem pool_noteDrop (s : Service) (inv : Invocation) : (s.noteDrop inv).pool = s.pool := by
  unfold Service.noteDrop
  split
  · split <;> rfl
  · rfl

/-! ### What a step does to the permits -/

private theorem returned_release (h : s.pool.Lined) : Returned s.pool s.release.pool := by
  cases hq : s.queue with
  | nil =>
    have hp : s.pool = ⟨s.free, [], s.stages⟩ := by rw [Service.pool, hq]
    have hr : s.release.pool = ⟨s.free + 1, [], s.stages⟩ := by simp only [Service.release, hq]; rfl
    exact hp ▸ hr ▸ .freed
  | cons first rest =>
    have hwaits : s.stages[first]? = some .queued := h.queued.1 (by rw [Service.pool, hq]; exact List.mem_cons_self ..)
    obtain ⟨other, ho, hstage⟩ : ∃ other, s.invocations[first]? = some other ∧ other.stage = .queued := by
      simpa [Service.stages] using hwaits
    have hp : s.pool = ⟨s.free, first :: rest, s.stages⟩ := by rw [Service.pool, hq]
    have hrelease : s.release = { s with queue := rest }.put first other (.granted s.now (s.lap + 1)) := by
      simp only [Service.release, hq, Service.grant, ho, hstage]
      rfl
    exact hp ▸ hrelease ▸ pool_put ▸ .passed hwaits

private theorem leaves_conclude (h : s.pool.Lined) : Leaves place s.pool (e.conclude s.release place inv report).pool :=
  .intro (returned_release h) puts_isPast_conclude

private theorem exits_resume (h : s.pool.Lined) (rest : RunProcess (Except RunError Outcome)) :
    Exits place s.pool (e.resume s place inv rest).pool := by
  have conclude (world : World) (inv' : Invocation) (report : Report) :
      Exits place s.pool (e.conclude { s with world }.release place inv' report).pool :=
    .leaves (leaves_conclude (s := { s with world }) h)
  have hresumed := resumed_resume e s place inv rest
  generalize rest.play e.partners (some s.now) ⟨s.world, inv.feed⟩ = result at hresumed
  obtain ⟨stop, scene⟩ := result
  generalize e.resume s place inv rest = t at hresumed
  cases hresumed with
  | concludes | timedOut => exact conclude ..
  | breaks =>
    have hreturned := returned_release (s := { s with world := scene.world }) h
    exact .leaves (.intro hreturned ⟨_, rfl, pool_put (s := Service.release { s with world := scene.world })⟩)
  | pauses | hangs => exact .stays ⟨_, rfl, pool_put (s := { s with world := _ })⟩

private theorem leaves_of_cut? (h : s.pool.Lined) (hp : e.cut? s place inv (·.release) = some t) :
    Leaves place s.pool t.pool := by
  unfold cut? at hp
  split at hp
  · exact Option.some.inj hp ▸ leaves_conclude h
  · split at hp
    · exact Option.some.inj hp ▸ leaves_conclude h
    · cases hp

private theorem turnsAway_of_cut? (hs : inv.stage = .queued) (hp : e.cut? s place inv (·.leaveQueue place) = some t) :
    Passage place inv.stage s.pool t.pool false := by
  have conclude (report : Report) :
      Passage place inv.stage s.pool (e.conclude (s.leaveQueue place) place inv report).pool false :=
    .turnsAway (by rw [hs]; rfl) (puts_isPast_conclude (s := s.leaveQueue place))
  unfold cut? at hp
  split at hp
  · exact Option.some.inj hp ▸ conclude _
  · split at hp
    · exact Option.some.inj hp ▸ conclude _
    · cases hp

/-- Whoever has not started is not in the queue. -/
private theorem turnsAway_conclude (h : s.pool.Lined) (hi : s.stages[place]? = some inv.stage)
    (hs : inv.stage = .dormant) :
    Passage place inv.stage s.pool (e.conclude s place inv report).pool false := by
  have hqueue : s.queue.filter (· != place) = s.queue := by
    refine List.filter_eq_self.2 fun j hj => ?_
    have hne : j ≠ place := fun heq =>
      ne_queued_of_dormant hs (Option.some.inj (hi.symm.trans (h.queued.1 (heq ▸ hj))))
    simpa using hne
  refine .turnsAway (by rw [hs]; rfl) ?_
  show Pool.Puts place _ ⟨s.free, s.queue.filter (· != place), s.stages⟩ _
  rw [hqueue]
  exact puts_isPast_conclude

/-- One that has not started takes a permit if there is one, or joins the queue, or is cut. -/
private theorem passage_of_dormant (h : s.pool.Lined) (hi : s.stages[place]? = some inv.stage)
    (hs : inv.stage = .dormant)
    (hstart : inv.start ≤ s.now)
    (hp : (if s.isCancelled inv.token then some (e.conclude s place inv (reportOf s inv (.error .cancelled)))
      else if 0 < s.free then some (e.enter { s with free := s.free - 1 } place inv)
      else if inv.deadline ≤ s.now then some (e.conclude s place inv (e.timedOutReport s inv))
      else some ({ s with queue := s.queue ++ [place] }.put place inv .queued)) = some t) :
    Passage place inv.stage s.pool t.pool (e.goesOn? s inv).isSome := by
  have hgoes := goesOn?_of_stage (e := e) (s := s) hs
  dsimp only at hgoes
  split at hp
  · rename_i hc
    rw [hgoes, if_pos hc]
    exact Option.some.inj hp ▸ turnsAway_conclude h hi hs
  · rename_i hc
    rw [if_neg hc] at hgoes
    split at hp
    · rename_i hf
      rw [hgoes, if_pos ⟨hstart, hf⟩]
      have hlined : (Service.pool { s with free := s.free - 1 }).Lined := lined_free h (Nat.sub_le ..)
      exact Option.some.inj hp ▸ .enters hs hf (exits_resume hlined _)
    · rename_i hf
      rw [hgoes, if_neg fun hh => hf hh.2]
      split at hp
      · exact Option.some.inj hp ▸ turnsAway_conclude h hi hs
      · exact Option.some.inj hp ▸ .queues hs (Nat.eq_zero_of_not_pos hf) (pool_put (s := { s with queue := _ }))

/-- One that has a permit goes on or is cut. -/
private theorem passage_of_inside (h : s.pool.Lined) (hs : inv.stage.isInside) {due : Nat}
    {rest : RunProcess (Except RunError Outcome)}
    (hgoes : e.goesOn? s inv = if s.isCancelled inv.token then none else if due ≤ s.now then some rest else none)
    (hp : (if !s.isCancelled inv.token && due ≤ s.now then some (e.resume s place inv rest)
      else e.cut? s place inv (·.release)) = some t) :
    Passage place inv.stage s.pool t.pool (e.goesOn? s inv).isSome := by
  split at hp
  · rename_i hd
    obtain ⟨hc, hd⟩ : s.isCancelled inv.token = false ∧ due ≤ s.now := by simpa using hd
    rw [hgoes, hc, if_neg Bool.false_ne_true, if_pos hd]
    exact Option.some.inj hp ▸ .goesOn hs (exits_resume h rest)
  · rename_i hd
    have hnone : e.goesOn? s inv = none := by
      rw [hgoes]
      simpa using hd
    rw [hnone]
    exact .cut hs (leaves_of_cut? h hp)

/-- Whatever an invocation does, this becomes of the permits. -/
private theorem passage_of_poll? (h : s.pool.Lined) (hi : s.stages[place]? = some inv.stage)
    (hp : e.poll? s place inv = some t) :
    Passage place inv.stage s.pool t.pool (e.goesOn? (s.noteDrop inv) inv).isSome := by
  have hd := pool_noteDrop s inv
  rw [← hd] at h ⊢
  rw [← stages_noteDrop s inv] at hi
  unfold poll? at hp
  generalize s.noteDrop inv = s at h hi hp ⊢
  dsimp only at hp
  have hgoes {stage : Stage} (hstage : inv.stage = stage) := goesOn?_of_stage (e := e) (s := s) hstage
  have idle (h : e.goesOn? s inv = if s.isCancelled inv.token then none else none) : e.goesOn? s inv = none :=
    h.trans (ite_self none)
  cases hstage : inv.stage with
  | dormant =>
    rw [hstage] at hp
    dsimp only at hp
    split at hp
    · cases hp
    · exact hstage ▸ passage_of_dormant h hi hstage (Nat.not_lt.1 ‹_›) hp
  | queued =>
    rw [hstage] at hp
    rw [idle (hgoes hstage)]
    exact hstage ▸ turnsAway_of_cut? hstage hp
  | granted due lap =>
    rw [hstage] at hp
    exact hstage ▸ passage_of_inside h (by rw [hstage]; rfl) (hgoes hstage) hp
  | running pending =>
    rw [hstage] at hp
    cases pending with
    | none =>
      rw [idle (hgoes hstage)]
      exact .cut rfl (leaves_of_cut? h hp)
    | some p => exact hstage ▸ passage_of_inside h (by rw [hstage]; rfl) (hgoes hstage) hp
  | closing report limit pending =>
    rw [hstage] at hp
    rw [idle (hgoes hstage)]
    have complete : Passage place (.closing report limit pending) s.pool (e.complete s place inv report).pool false :=
      .closes rfl (Spares.puts_isPast spares_complete (puts_complete.mono fun _ h => by omega))
    cases pending with
    | none =>
      dsimp only at hp
      split at hp
      · exact Option.some.inj hp ▸ complete
      · cases hp
    | some p =>
      dsimp only at hp
      split at hp
      · exact Option.some.inj hp ▸ .closes rfl (Spares.puts_isPast spares_close (puts_close.mono fun _ h => h.rank_le))
      · split at hp
        · exact Option.some.inj hp ▸ complete
        · cases hp
  | marking report ended due =>
    rw [hstage] at hp
    rw [idle (hgoes hstage)]
    dsimp only at hp
    split at hp
    · exact Option.some.inj hp ▸
        .closes rfl (Spares.puts_isPast spares_putMark (puts_putMark.mono fun _ h => by omega))
    · cases hp
  | finished | broken => rw [hstage] at hp; cases hp

private theorem passage_of_stepAt? {slot : Slot} (h : s.pool.Lined) (hi : s.invocations[slot.place]? = some inv)
    (hs : e.stepAt? s slot = some t) :
    Passage slot.place inv.stage s.pool t.pool (e.goesOn? ((s.atSlot slot).noteDrop inv) inv).isSome := by
  obtain ⟨inv', hi', hp⟩ := Option.bind_eq_some_iff.1 hs
  obtain rfl : inv = inv' := Option.some.inj (hi.symm.trans hi')
  exact passage_of_poll? (s := s.atSlot slot) h (getElem?_stages hi) hp

/-! ### Along a course -/

variable {s₀ : Service} {store : Store} {course : List (Nat × RunTrace)}

private theorem balanced_opened (h : e.open? store = some s₀) : s₀.pool.Balanced e.permits := by
  obtain ⟨-, rfl⟩ := open?_eq_some.1 h
  exact ⟨⟨by simp [Service.pool, Service.stages], .nil, fun _ => rfl⟩, rfl⟩

private theorem balanced_course (ho : e.open? store = some s₀) (h : Course e s₀ course s) :
    s.pool.Balanced e.permits := by
  induction h with
  | opened => exact balanced_opened ho
  | @invoked _ s _ inv hd ih =>
    have hpool : Service.pool { s with invocations := s.invocations ++ [inv] } =
        { s.pool with stages := s.pool.stages ++ [.dormant] } := by
      simp [Service.pool, Service.stages, hd]
    rw [hpool]
    exact ih.append
  | cancelled _ _ ih => exact ih
  | clock _ _ _ ih => exact ih
  | stepped _ hs ih =>
    obtain ⟨inv, hi, -⟩ := Option.bind_eq_some_iff.1 hs
    exact (passage_of_stepAt? ih.toLined hi hs).balanced ih (getElem?_stages hi)

/-- What is written in a step is what the run calls, and then what the hooks are told of the result. -/
private theorem Traced.journal {slot : Slot} (h : Traced e course s) (hs : e.stepAt? s slot = some t) :
    ∃ told, t.world.journal = s.world.journal ++ entriesOf slot.time (e.didAt s slot) ++ told ∧
      ClosingAt slot.time told := by
  obtain ⟨inv, -, hstepped⟩ := h.stepAt hs
  have hworld := Service.world_noteDrop (s.atSlot slot) inv
  have hjournal : ((s.atSlot slot).noteDrop inv).world.journal = s.world.journal := by rw [hworld]; rfl
  have hnow : ((s.atSlot slot).noteDrop inv).now = slot.time := congrArg World.now hworld
  obtain ⟨inv', -, -, -, -, hfate⟩ := hstepped.own
  rw [← hnow, ← hjournal]
  cases hfate with
  | waits _ _ hj | breaks _ _ _ hj => exact ⟨[], hj.trans (List.append_nil _).symm, fun _ h => nomatch h⟩
  | fails _ _ _ hj ht => exact ⟨_, hj, ht⟩
  | succeeds _ _ _ _ hj ht => exact ⟨_, hj, ht⟩
  | closes _ _ _ hj ht hd => exact ⟨_, by rw [hj, hd, entriesOf_nil, List.append_nil], ht⟩

/-- A step in which no run goes on calls nobody, and leaves the store alone. -/
private theorem Traced.quiet {slot : Slot} (h : Traced e course s) (hi : s.invocations[slot.place]? = some inv)
    (hs : e.stepAt? s slot = some t) (hg : e.goesOn? ((s.atSlot slot).noteDrop inv) inv = none) :
    e.didAt s slot = [] ∧ t.world.store = s.world.store := by
  obtain ⟨inv', hi', hstepped⟩ := h.stepAt hs
  obtain rfl : inv = inv' := Option.some.inj (hi.symm.trans hi')
  have hdid : e.didAt s slot = [] := by
    rw [didAt, hi]
    exact did_of_none hg
  have hstore : ((s.atSlot slot).noteDrop inv).world.store = s.world.store := by
    rw [Service.world_noteDrop]
    rfl
  exact ⟨hdid, (hstepped.store fun x hx => by simp [hdid] at hx).trans hstore⟩

/-- What is true of the permits whenever a course has come to `s`. -/
structure Pooled (e : Engine) (course : List (Nat × RunTrace)) (s : Service) : Prop where
  /-- There are never more inside than there may be, -/
  bounded : s.pool.inside ≤ max 1 e.config.maxConcurrent.toNat
  /-- no permit is ever lost, -/
  sum : s.free + s.pool.inside = max 1 e.config.maxConcurrent.toNat
  full (h : s.pool.inside = 0) : s.free = max 1 e.config.maxConcurrent.toNat
  /-- and who has not gone on with a permit has done nothing. -/
  fresh {place : Nat} {inv : Invocation} (hi : s.invocations[place]? = some inv) (hf : isFresh inv.stage) :
    traceOf course place = []
  /-- What becomes of the permits in the next step, whosoever it is, -/
  passage {slot : Slot} {inv : Invocation} {t : Service} (hi : s.invocations[slot.place]? = some inv)
    (hs : e.stepAt? s slot = some t) :
    Passage slot.place inv.stage s.pool t.pool (e.goesOn? ((s.atSlot slot).noteDrop inv) inv).isSome
  /-- also while it takes place: whoever goes on is inside with a permit of its own, -/
  during {slot : Slot} {inv : Invocation} {t : Service} (hi : s.invocations[slot.place]? = some inv)
    (hs : e.stepAt? s slot = some t) (hg : (e.goesOn? ((s.atSlot slot).noteDrop inv) inv).isSome) :
    (s.pool.put slot.place (.running none)).inside ≤ max 1 e.config.maxConcurrent.toNat
  /-- and nobody else calls anybody, except for hooks that are told a result. -/
  quiet {slot : Slot} {inv : Invocation} {t : Service} (hi : s.invocations[slot.place]? = some inv)
    (hs : e.stepAt? s slot = some t) (hg : e.goesOn? ((s.atSlot slot).noteDrop inv) inv = none) :
    e.didAt s slot = [] ∧ t.world.store = s.world.store
  journal {slot : Slot} {t : Service} (hs : e.stepAt? s slot = some t) :
    ∃ told, t.world.journal = s.world.journal ++ entriesOf slot.time (e.didAt s slot) ++ told ∧
      ClosingAt slot.time told

/-- Whatever invocations there are, and in whatever order they start, wait, go on, end, break down and are cut: the
permits bound how many are inside, and all of them come back. -/
theorem course_pooled (ho : e.open? store = some s₀) (h : Course e s₀ course s) : Pooled e course s := by
  have hb := balanced_course ho h
  have ht := traced_course ((open?_eq_some.1 ho).2 ▸ rfl) h
  have hpermits : e.permits = max 1 e.config.maxConcurrent.toNat := Nat.max_comm ..
  have hsum : s.free + s.pool.inside = e.permits := hb.sum
  rw [hpermits] at hsum hb
  exact {
    bounded := hsum ▸ Nat.le_add_left ..
    sum := hsum
    full := fun h => by rwa [h] at hsum
    fresh := fun hi hf => (ht.sound hi).fresh hf
    passage := fun hi hs => passage_of_stepAt? hb.toLined hi hs
    during := fun hi hs hg => (hg ▸ passage_of_stepAt? hb.toLined hi hs).inside_put_le hb (getElem?_stages hi)
    quiet := fun hi hs hg => ht.quiet hi hs hg
    journal := fun hs => ht.journal hs }

/-- An engine with one permit, and a store that breaks down after a while when it is to load. -/
def booth : Engine where
  provider := { reply := fun _ _ => .now (.ok (.whole ⟨.ofAssistant "hello", none, "m"⟩)) }
  config := { maxConcurrent := 1, defaultTemperature := .finite false 0 0 }
  store := some { ConversationStore.atOnce with load := fun _ _ _ => ⟨5, .faults "store down"⟩ }

/-- Two invocations at once. -/
def callers : Service where
  free := 1
  invocations := [greeting, { greeting with token := 1 }]

/-- The first caller waits for the store inside, and when that breaks down the permit goes to the second one. -/
theorem course_pooled_booth : ∃ store s₀ course s t, booth.open? store = some s₀ ∧ Course booth s₀ course s ∧
    s.free = 0 ∧ s.queue = [1] ∧ s.pool.inside = 1 ∧ Pooled booth course s ∧ booth.stepAt? s ⟨5, 0, 0⟩ = some t ∧
    (∃ inv, t.invocations[0]? = some inv ∧ inv.endedAt? = some 5 ∧ inv.stage.report? = none) ∧
    t.free = 0 ∧ t.queue = [] ∧ t.pool.inside = 1 := by
  have hopen : booth.open? { kind := .forgetful } = some { free := 1 } :=
    open?_eq_some.2 ⟨by decide +kernel, rfl⟩
  have hinvoked : Course booth { free := 1 } [] callers := .invoked (.invoked .opened rfl) rfl
  have hsteps : ((booth.stepAt? callers ⟨0, 0, 0⟩).bind (booth.stepAt? · ⟨0, 0, 1⟩)).any (fun s =>
      s.free == 0 && s.queue == [1] && (booth.stepAt? s ⟨5, 0, 0⟩).any fun t =>
        t.free == 0 && t.queue == [] && t.invocations[0]?.any fun inv =>
          inv.endedAt? == some 5 && inv.stage.report?.isNone) = true := by decide +kernel
  obtain ⟨s, hsteps, hpool⟩ := (Option.any_eq_true ..).1 hsteps
  obtain ⟨s₁, hfirst, hsecond⟩ := Option.bind_eq_some_iff.1 hsteps
  simp only [Bool.and_eq_true, beq_iff_eq] at hpool
  obtain ⟨⟨hfree, hqueue⟩, hbreaks⟩ := hpool
  obtain ⟨t, hthird, hbroken⟩ := (Option.any_eq_true ..).1 hbreaks
  simp only [Bool.and_eq_true, beq_iff_eq] at hbroken
  obtain ⟨⟨hfree', hqueue'⟩, hended⟩ := hbroken
  obtain ⟨inv, hinv, hended⟩ := (Option.any_eq_true ..).1 hended
  simp only [Bool.and_eq_true, beq_iff_eq, Option.isNone_iff_eq_none] at hended
  have h := (hinvoked.stepped hfirst).stepped hsecond
  have inside {course : List (Nat × RunTrace)} {u : Service} (h : Course booth { free := 1 } course u)
      (hfree : u.free = 0) : u.pool.inside = 1 := by
    have hsum : u.free + u.pool.inside = 1 := (course_pooled hopen h).sum
    rwa [hfree, Nat.zero_add] at hsum
  exact ⟨_, _, _, s, t, hopen, h, hfree, hqueue, inside h hfree, course_pooled hopen h, hthird, ⟨inv, hinv, hended⟩,
    hfree', hqueue', inside (h.stepped hthird) hfree'⟩

end Engine

end AgentLoop
