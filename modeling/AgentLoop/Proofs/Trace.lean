import AgentLoop.Run

/-!
# Traces and contracts

What a process does is its trace: its effects, each with the answer it got.  `Process.Leads` says which processes are
left after which traces, whatever the answers are.  A `Contract` says which effects are allowed after which traces,
and `Process.Keeps` that a process keeps it: it has only effects that are allowed, as long as the answers are of the
kind that is expected, and where it returns, the trace and the value are as promised.  `keeps_bind` takes a sequence
of processes apart, and `Keeps.local` lets each of them be looked at by itself, as if nothing had happened before.
`Process.Stays` also says where it is at rest on the way, and `Process.BreaksOnly` for what causes it may break down.
-/

namespace AgentLoop

/-- An effect and the answer to it. -/
abbrev Exchange (S : Signature) : Type := (e : S.Effect) × S.Answer e

/-- What a process may do, and what it may rely on. -/
structure Contract (S : Signature) where
  allows : List (Exchange S) → S.Effect → Prop
  expects : (e : S.Effect) → S.Answer e → Prop
  mayHang : Prop

namespace Contract

variable {S : Signature}

/-- Answers of any kind are expected, and hanging is no breach. -/
def ofAllows (allows : List (Exchange S) → S.Effect → Prop) : Contract S := ⟨allows, fun _ _ => True, True⟩

/-- The answers of a trace are of the kind that is expected. -/
def Answered (c : Contract S) (trace : List (Exchange S)) : Prop := ∀ x ∈ trace, c.expects x.1 x.2

end Contract

namespace Process

variable {S : Signature} {α β : Type}

/-- `Leads p trace q`: after this trace `q` is left of `p`. -/
inductive Leads : Process S α → List (Exchange S) → Process S α → Prop where
  | here (p : Process S α) : Leads p [] p
  | act {e : S.Effect} {next : S.Answer e → Process S α} {answer : S.Answer e} {trace : List (Exchange S)}
      {q : Process S α} (h : Leads (next answer) trace q) : Leads (.act e next) (⟨e, answer⟩ :: trace) q
  | wait {n : Nat} {next q : Process S α} {trace : List (Exchange S)} (h : Leads next trace q) :
      Leads (.wait n next) trace q
  | yield {next q : Process S α} {trace : List (Exchange S)} (h : Leads next trace q) : Leads (.yield next) trace q

/-- The process keeps the contract from a trace on, and returns only as promised. -/
def Keeps (c : Contract S) (post : List (Exchange S) → α → Prop) : List (Exchange S) → Process S α → Prop
  | trace, done a => post trace a
  | trace, act e next =>
    c.allows trace e ∧ ∀ answer, c.expects e answer → Keeps c post (trace ++ [⟨e, answer⟩]) (next answer)
  | trace, wait _ next => Keeps c post trace next
  | trace, yield next => Keeps c post trace next
  | _, fault _ => True
  | _, hang => c.mayHang

/-! ### Where a process leads -/

theorem Leads.trans {p q r : Process S α} {t u : List (Exchange S)} (h : Leads p t q) (h' : Leads q u r) :
    Leads p (t ++ u) r := by
  induction h with
  | here => exact h'
  | act _ ih => exact .act (ih h')
  | wait _ ih => exact .wait (ih h')
  | yield _ ih => exact .yield (ih h')

theorem Leads.bind {p q : Process S α} {t : List (Exchange S)} (f : α → Process S β) (h : Leads p t q) :
    Leads (p >>= f) t (q >>= f) := by
  induction h with
  | here => exact .here _
  | act _ ih => exact .act ih
  | wait _ ih => exact .wait ih
  | yield _ ih => exact .yield ih

theorem leads_done {q : Process S α} {t : List (Exchange S)} {a : α} (h : Leads (done a) t q) : t = [] ∧ q = done a := by
  cases h
  exact ⟨rfl, rfl⟩

/-- A process that returns goes on with what follows. -/
theorem Leads.bind_done {p : Process S α} {f : α → Process S β} {q : Process S β} {t u : List (Exchange S)} {a : α}
    (h : Leads p t (done a)) (h' : Leads (f a) u q) : Leads (p >>= f) (t ++ u) q :=
  (h.bind f).trans h'

/-- Whoever is on the way through a sequence is in its first part, or has come through that. -/
theorem leads_bind {p : Process S α} {f : α → Process S β} {q : Process S β} {t : List (Exchange S)}
    (h : Leads (p >>= f) t q) :
    (∃ r, q = r >>= f ∧ Leads p t r) ∨ ∃ a u v, t = u ++ v ∧ Leads p u (done a) ∧ Leads (f a) v q := by
  induction p generalizing t with
  | done a => exact .inr ⟨a, [], t, rfl, .here _, h⟩
  | act e next ih =>
    cases h with
    | here => exact .inl ⟨_, rfl, .here _⟩
    | act h =>
      rcases ih _ h with ⟨r, hq, hr⟩ | ⟨a, u, v, rfl, hu, hv⟩
      · exact .inl ⟨r, hq, .act hr⟩
      · exact .inr ⟨a, _ :: u, v, rfl, .act hu, hv⟩
  | wait n next ih =>
    cases h with
    | here => exact .inl ⟨_, rfl, .here _⟩
    | wait h =>
      rcases ih h with ⟨r, hq, hr⟩ | ⟨a, u, v, rfl, hu, hv⟩
      · exact .inl ⟨r, hq, .wait hr⟩
      · exact .inr ⟨a, u, v, rfl, .wait hu, hv⟩
  | yield next ih =>
    cases h with
    | here => exact .inl ⟨_, rfl, .here _⟩
    | yield h =>
      rcases ih h with ⟨r, hq, hr⟩ | ⟨a, u, v, rfl, hu, hv⟩
      · exact .inl ⟨r, hq, .yield hr⟩
      · exact .inr ⟨a, u, v, rfl, .yield hu, hv⟩
  | fault message =>
    cases h
    exact .inl ⟨.fault message, rfl, .here _⟩
  | hang =>
    cases h
    exact .inl ⟨.hang, rfl, .here _⟩

/-- Whoever has not come through the first part of a sequence has not returned. -/
theorem leads_bind_strict {p : Process S α} {f : α → Process S β} {q : Process S β} {t : List (Exchange S)}
    (h : Leads (p >>= f) t q) :
    ((∀ b, q ≠ done b) ∧ ∃ r, q = r >>= f ∧ Leads p t r) ∨
      ∃ a u v, t = u ++ v ∧ Leads p u (done a) ∧ Leads (f a) v q := by
  rcases leads_bind h with ⟨r, hq, hr⟩ | h
  · cases r with
    | done a => exact .inr ⟨a, t, [], (List.append_nil t).symm, hr, hq ▸ .here _⟩
    | _ => exact .inl ⟨fun b hb => (nomatch hq.symm.trans hb), _, hq, hr⟩
  · exact .inr h

/-- A sequence that returns has come through its first part. -/
theorem leads_bind_done {p : Process S α} {f : α → Process S β} {b : β} {t : List (Exchange S)}
    (h : Leads (p >>= f) t (done b)) :
    ∃ a u v, t = u ++ v ∧ Leads p u (done a) ∧ Leads (f a) v (done b) := by
  rcases leads_bind_strict h with ⟨hb, -⟩ | h
  · exact absurd rfl (hb b)
  · exact h

/-! ### Rules for contracts -/

section

variable {c c' : Contract S} {post post' : List (Exchange S) → α → Prop} {t : List (Exchange S)} {p : Process S α}

@[simp] theorem keeps_pure {a : α} : Keeps c post t (pure a) ↔ post t a := Iff.rfl

@[simp] theorem keeps_bind {f : α → Process S β} {post : List (Exchange S) → β → Prop} :
    Keeps c post t (p >>= f) ↔ Keeps c (fun u a => Keeps c post u (f a)) t p := by
  show Keeps c post t (p.bind f) ↔ _
  induction p generalizing t with
  | done a => rfl
  | act e next ih => simp only [Process.bind, Keeps, ih]
  | wait n next ih => simp only [Process.bind, Keeps, ih]
  | yield next ih => simp only [Process.bind, Keeps, ih]
  | fault => rfl
  | hang => rfl

@[simp] theorem keeps_ask {e : S.Effect} {post : List (Exchange S) → S.Answer e → Prop} :
    Keeps c post t (ask e) ↔
      c.allows t e ∧ ∀ answer, c.expects e answer → post (t ++ [⟨e, answer⟩]) answer := Iff.rfl

@[simp] theorem keeps_wait {n : Nat} : Keeps c post t (.wait n p) ↔ Keeps c post t p := Iff.rfl

@[simp] theorem keeps_sleep {n : Nat} {post : List (Exchange S) → Unit → Prop} :
    Keeps c post t (sleep n) ↔ post t () := Iff.rfl

@[simp] theorem keeps_pass {post : List (Exchange S) → Unit → Prop} : Keeps c post t pass ↔ post t () := Iff.rfl

@[simp] theorem keeps_fault {message : String} : Keeps c post t (.fault message) := trivial

@[simp] theorem keeps_hang : Keeps c post t .hang ↔ c.mayHang := Iff.rfl

theorem keeps_react {r : Reaction α} :
    Keeps c post t (react r) ↔ (r.ending = .hangs → c.mayHang) ∧ ∀ a, r.ending = .returns a → post t a := by
  obtain ⟨after, ending⟩ := r
  cases ending <;> simp [react, Keeps]

theorem Keeps.mono (h : Keeps c post t p) (hc : ∀ u e, c.allows u e → c'.allows u e)
    (he : ∀ e a, c'.expects e a → c.expects e a) (hh : c.mayHang → c'.mayHang)
    (hp : ∀ u a, post u a → post' u a) : Keeps c' post' t p := by
  induction p generalizing t with
  | done a => exact hp _ _ h
  | act e next ih => exact ⟨hc _ _ h.1, fun a ha => ih a (h.2 a (he _ _ ha))⟩
  | wait n next ih => exact ih h
  | yield next ih => exact ih h
  | fault => trivial
  | hang => exact hh h

/-- More may be concluded from the return of a process. -/
theorem Keeps.imp (h : Keeps c post t p) (hp : ∀ u a, post u a → post' u a) : Keeps c post' t p :=
  h.mono (fun _ _ => id) (fun _ _ => id) id hp

/-- What the process does by itself, it does after any trace. -/
theorem Keeps.local (h : Keeps c post [] p) (hc : ∀ u e, c.allows u e → c'.allows (t ++ u) e)
    (he : ∀ e a, c'.expects e a → c.expects e a) (hh : c.mayHang → c'.mayHang)
    (hp : ∀ u a, post u a → post' (t ++ u) a) : Keeps c' post' t p := by
  suffices ∀ u, Keeps c post u p → Keeps c' post' (t ++ u) p by simpa using this [] h
  clear h
  induction p with
  | done a => exact fun u h => hp _ _ h
  | act e next ih =>
    intro u h
    refine ⟨hc _ _ h.1, fun a ha => ?_⟩
    rw [List.append_assoc]
    exact ih a _ (h.2 a (he _ _ ha))
  | wait n next ih => exact ih
  | yield next ih => exact ih
  | fault => exact fun _ _ => trivial
  | hang => exact fun _ h => hh h

/-- A returned value comes with the trace that led to it. -/
theorem Keeps.withTrace (h : Keeps c post t p) :
    Keeps c (fun u a => post u a ∧ ∃ v, u = t ++ v ∧ c.Answered v ∧ Leads p v (done a)) t p := by
  suffices ∀ u, Keeps c post u p →
      Keeps c (fun w a => post w a ∧ ∃ v, w = u ++ v ∧ c.Answered v ∧ Leads p v (done a)) u p from this t h
  clear h
  induction p with
  | done a => exact fun u h => ⟨h, [], by simp, fun _ h => (by simp at h), .here _⟩
  | act e next ih =>
    intro u h
    refine ⟨h.1, fun a ha => (ih a _ (h.2 a ha)).imp ?_⟩
    rintro w b ⟨hb, v, rfl, hv, hl⟩
    refine ⟨hb, ⟨e, a⟩ :: v, by simp, ?_, .act hl⟩
    intro x hx
    obtain rfl | hx := List.mem_cons.1 hx
    · exact ha
    · exact hv x hx
  | wait n next ih =>
    intro u h
    refine (ih u h).imp ?_
    rintro w b ⟨hb, v, hw, hv, hl⟩
    exact ⟨hb, v, hw, hv, .wait hl⟩
  | yield next ih =>
    intro u h
    refine (ih u h).imp ?_
    rintro w b ⟨hb, v, hw, hv, hl⟩
    exact ⟨hb, v, hw, hv, .yield hl⟩
  | fault => exact fun _ _ => trivial
  | hang => exact fun _ h => h

/-- What is left of a process that keeps a contract keeps it. -/
theorem Keeps.of_leads {q : Process S α} {u : List (Exchange S)} (h : Keeps c post t p) (hl : Leads p u q)
    (hu : c.Answered u) : Keeps c post (t ++ u) q := by
  induction hl generalizing t with
  | here => simpa using h
  | act _ ih =>
    rw [List.append_cons]
    exact ih (h.2 _ (hu _ (List.mem_cons_self ..))) fun x hx => hu x (List.mem_cons_of_mem _ hx)
  | wait _ ih => exact ih h hu
  | yield _ ih => exact ih h hu

private theorem Leads.split {q : Process S α} {u v : List (Exchange S)} (h : Leads p (u ++ v) q) :
    ∃ r, Leads p u r ∧ Leads r v q := by
  induction p generalizing u with
  | act e next ih =>
    cases u with
    | nil => exact ⟨_, .here _, h⟩
    | cons x u =>
      cases h with
      | act h =>
        obtain ⟨r, hr, hq⟩ := ih _ h
        exact ⟨r, .act hr, hq⟩
  | wait n next ih =>
    generalize hw : u ++ v = w at h
    cases h with
    | here =>
      obtain ⟨rfl, rfl⟩ := List.append_eq_nil_iff.1 hw
      exact ⟨_, .here _, .here _⟩
    | wait h =>
      obtain ⟨r, hr, hq⟩ := ih (hw ▸ h)
      exact ⟨r, .wait hr, hq⟩
  | yield next ih =>
    generalize hw : u ++ v = w at h
    cases h with
    | here =>
      obtain ⟨rfl, rfl⟩ := List.append_eq_nil_iff.1 hw
      exact ⟨_, .here _, .here _⟩
    | yield h =>
      obtain ⟨r, hr, hq⟩ := ih (hw ▸ h)
      exact ⟨r, .yield hr, hq⟩
  | _ =>
    generalize hw : u ++ v = w at h
    cases h
    obtain ⟨rfl, rfl⟩ := List.append_eq_nil_iff.1 hw
    exact ⟨_, .here _, .here _⟩

/-- What a process leads to with a longer trace comes after what it leads to with a shorter one, unless neither has had
an effect since. -/
theorem Leads.after {q r : Process S α} {u v : List (Exchange S)} (h : Leads p u q) (h' : Leads p (u ++ v) r) :
    Leads q v r ∨ v = [] ∧ Leads r [] q := by
  induction h with
  | here => exact .inl h'
  | act _ ih =>
    cases h' with
    | act h' => exact ih h'
  | @wait _ _ _ u h ih =>
    generalize hw : u ++ v = w at h'
    cases h' with
    | here =>
      obtain ⟨rfl, rfl⟩ := List.append_eq_nil_iff.1 hw
      exact .inr ⟨rfl, .wait h⟩
    | wait h' => exact ih (hw ▸ h')
  | @yield _ _ u h ih =>
    generalize hw : u ++ v = w at h'
    cases h' with
    | here =>
      obtain ⟨rfl, rfl⟩ := List.append_eq_nil_iff.1 hw
      exact .inr ⟨rfl, .yield h⟩
    | yield h' => exact ih (hw ▸ h')

/-- Every effect on the way is allowed. -/
theorem Keeps.allows_of_leads {q : Process S α} {u v : List (Exchange S)} {x : Exchange S} (h : Keeps c post t p)
    (hl : Leads p (u ++ x :: v) q) (hu : c.Answered u) : c.allows (t ++ u) x.1 := by
  obtain ⟨r, hr, hx⟩ := hl.split
  have hk := h.of_leads hr hu
  clear hr h hl
  generalize hw : x :: v = w at hx
  induction hx with
  | here => cases hw
  | act _ =>
    cases hw
    exact hk.1
  | wait _ ih => exact ih hk hw
  | yield _ ih => exact ih hk hw

/-- What holds at first and is preserved by every effect that is allowed holds all the way. -/
theorem Keeps.invariant {q : Process S α} {u : List (Exchange S)} (h : Keeps c post t p)
    (inv : List (Exchange S) → Prop) (hi : ∀ v e a, inv v → c.allows v e → c.expects e a → inv (v ++ [⟨e, a⟩]))
    (ht : inv t) (hl : Leads p u q) (hu : c.Answered u) : inv (t ++ u) := by
  induction hl generalizing t with
  | here => simpa using ht
  | act _ ih =>
    rw [List.append_cons]
    have he := hu _ (List.mem_cons_self ..)
    exact ih (h.2 _ he) (hi _ _ _ ht h.1 he) fun x hx => hu x (List.mem_cons_of_mem _ hx)
  | wait _ ih => exact ih h ht hu
  | yield _ ih => exact ih h ht hu

/-- A process that returns has preserved what every effect preserves, and has led to its value. -/
theorem Keeps.certified (h : Keeps c post [] p) (inv : List (Exchange S) → Prop)
    (hi : ∀ v e a, inv v → c.allows v e → c.expects e a → inv (v ++ [⟨e, a⟩])) (h0 : inv []) :
    Keeps c (fun u a => post u a ∧ inv u ∧ Leads p u (done a)) [] p := by
  refine h.withTrace.imp ?_
  rintro u a ⟨hp, v, rfl, hv, hl⟩
  exact ⟨hp, h.invariant inv hi h0 hl hv, hl⟩

end

/-! ### At rest -/

/-- The process does not go on by itself: it waits for the clock, or it has broken down or hangs. -/
def AtRest : Process S α → Prop
  | done _ | act .. => False
  | wait .. | yield _ | fault _ | hang => True

/-- The process keeps the contract from a trace on, returns only as promised, and is at rest only like this. -/
def Stays (c : Contract S) (rests : List (Exchange S) → Process S α → Prop) (post : List (Exchange S) → α → Prop) :
    List (Exchange S) → Process S α → Prop
  | trace, done a => post trace a
  | trace, act e next =>
    c.allows trace e ∧ ∀ answer, c.expects e answer → Stays c rests post (trace ++ [⟨e, answer⟩]) (next answer)
  | trace, wait n next => rests trace (wait n next) ∧ Stays c rests post trace next
  | trace, yield next => rests trace (yield next) ∧ Stays c rests post trace next
  | trace, fault message => rests trace (fault message)
  | trace, hang => rests trace hang ∧ c.mayHang

section

variable {c c' : Contract S} {rests rests' : List (Exchange S) → Process S α → Prop}
  {post post' : List (Exchange S) → α → Prop} {t : List (Exchange S)} {p : Process S α}

theorem stays_bind {f : α → Process S β} {rests : List (Exchange S) → Process S β → Prop}
    {post : List (Exchange S) → β → Prop} :
    Stays c rests post t (p >>= f) ↔
      Stays c (fun u q => rests u (q >>= f)) (fun u a => Stays c rests post u (f a)) t p := by
  show Stays c rests post t (p.bind f) ↔ _
  induction p generalizing t with
  | done a => rfl
  | act e next ih => simp only [Process.bind, Stays, ih]
  | wait n next ih => simp only [Process.bind, Stays, ih]; rfl
  | yield next ih => simp only [Process.bind, Stays, ih]; rfl
  | fault => rfl
  | hang => rfl

theorem stays_react {r : Reaction α} (hr : ∀ p, rests t p) (hh : r.ending = .hangs → c.mayHang)
    (hp : ∀ a, r.ending = .returns a → post t a) : Stays c rests post t (react r) := by
  obtain ⟨after, ending⟩ := r
  refine ⟨hr _, ?_⟩
  cases ending with
  | returns a => exact hp a rfl
  | faults message => exact hr _
  | hangs => exact ⟨hr _, hh rfl⟩

theorem Stays.imp (h : Stays c rests post t p) (hr : ∀ u q, rests u q → rests' u q) (hp : ∀ u a, post u a → post' u a) :
    Stays c rests' post' t p := by
  induction p generalizing t with
  | done => exact hp _ _ h
  | act e next ih => exact ⟨h.1, fun a ha => ih a (h.2 a ha)⟩
  | wait n next ih => exact ⟨hr _ _ h.1, ih h.2⟩
  | yield next ih => exact ⟨hr _ _ h.1, ih h.2⟩
  | fault => exact hr _ _ h
  | hang => exact ⟨hr _ _ h.1, h.2⟩

theorem Stays.keeps (h : Stays c rests post t p) : Keeps c post t p := by
  induction p generalizing t with
  | done => exact h
  | act e next ih => exact ⟨h.1, fun a ha => ih a (h.2 a ha)⟩
  | wait n next ih => exact ih h.2
  | yield next ih => exact ih h.2
  | fault => trivial
  | hang => exact h.2

/-- Who keeps to two contracts comes to what both promise. -/
theorem Stays.both (h : Stays c rests post t p) (h' : Keeps c' post' t p) (he : ∀ e a, c.expects e a → c'.expects e a) :
    Stays c rests (fun u a => post u a ∧ post' u a) t p := by
  induction p generalizing t with
  | done => exact ⟨h, h'⟩
  | act e next ih => exact ⟨h.1, fun a ha => ih a (h.2 a ha) (h'.2 a (he _ _ ha))⟩
  | wait n next ih => exact ⟨h.1, ih h.2 h'⟩
  | yield next ih => exact ⟨h.1, ih h.2 h'⟩
  | fault => exact h
  | hang => exact h

/-- Wherever it is at rest, it is so only as it should be. -/
theorem Stays.rests_of_leads {q : Process S α} {u : List (Exchange S)} (h : Stays c rests post t p) (hl : Leads p u q)
    (hu : c.Answered u) (hq : q.AtRest) : rests (t ++ u) q := by
  induction hl generalizing t with
  | here p =>
    rw [List.append_nil]
    cases p with
    | done | act => exact hq.elim
    | wait | yield | hang => exact h.1
    | fault => exact h
  | act _ ih =>
    rw [List.append_cons]
    exact ih (h.2 _ (hu _ (List.mem_cons_self ..))) (fun x hx => hu x (List.mem_cons_of_mem _ hx)) hq
  | wait _ ih | yield _ ih => exact ih h.2 hu hq

end

/-! ### Breaking down -/

/-- From this trace on, the process breaks down only after such traces and with such messages. -/
def BreaksOnly (cause : List (Exchange S) → String → Prop) : List (Exchange S) → Process S α → Prop
  | _, done _ => True
  | trace, act e next => ∀ answer, BreaksOnly cause (trace ++ [⟨e, answer⟩]) (next answer)
  | trace, wait _ next => BreaksOnly cause trace next
  | trace, yield next => BreaksOnly cause trace next
  | trace, fault message => cause trace message
  | _, hang => True

section

variable {cause : List (Exchange S) → String → Prop} {t u : List (Exchange S)} {p : Process S α}

theorem BreaksOnly.bind {f : α → Process S β} (h : BreaksOnly cause t p) (hf : ∀ u a, BreaksOnly cause u (f a)) :
    BreaksOnly cause t (p >>= f) := by
  induction p generalizing t with
  | done a => exact hf t a
  | act e next ih => exact fun answer => ih answer (h answer)
  | wait n next ih => exact ih h
  | yield next ih => exact ih h
  | fault => exact h
  | hang => trivial

theorem breaksOnly_react {r : Reaction α} (h : ∀ message, r.ending = .faults message → cause t message) :
    BreaksOnly cause t (react r) := by
  obtain ⟨after, ending⟩ := r
  cases ending with
  | returns | hangs => trivial
  | faults message => exact h message rfl

/-- Wherever it breaks down, there is a cause. -/
theorem BreaksOnly.of_leads {message : String} (h : BreaksOnly cause t p) (hl : Leads p u (.fault message)) :
    cause (t ++ u) message := by
  generalize hq : Process.fault message = q at hl
  induction hl generalizing t with
  | here =>
    subst hq
    rwa [List.append_nil]
  | act _ ih =>
    rw [List.append_cons]
    exact ih (h _) hq
  | wait _ ih => exact ih h hq
  | yield _ ih => exact ih h hq

end

end Process

end AgentLoop
