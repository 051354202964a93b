import TreeScript.Proofs.Eval.Signals
import TreeScript.Proofs.Regime.Host

/-!
# The order of preparations

The `Desk` of a state is what it says of preparations: the functions that the running thread is preparing,
those that waiting threads are preparing, and the signatures that have been made. It is in order if these
functions are different ones and none of them has a signature (`Desk.InOrder`).

* `d.Later e`: the desk `e` is what `d` may be after something was carried through. The same functions are
  being prepared, and every signature is still there.
* `d.Onward e`: the desk `e` is what `d` may be on the way. More functions may be being prepared, on the same
  thread or on one that was started since.
* `d.Keeps x x'`: from a desk later than `d` the computation `x` returns, fails or breaks off with a desk
  later than `d`, and waits with one onward from it; and `x'` does the same as `x`.

There are two places where visits start from a desk of another kind, and both are onward from the one before:
the default values of a function are evaluated while the function is being prepared, and the work of a task is
done on a thread of its own. So the desks onward from one are the stages of a regime (`Regime.orderly`), and
what keeps the regime keeps the desk (`Desk.InOrder.keeps`).
-/

namespace TreeScript

/-- What a state says of preparations. -/
structure Desk where
  /-- The functions that the running thread is preparing. -/
  preparing : List Nat
  /-- The functions that threads are preparing which wait for the one that runs. -/
  held : List Nat
  signatures : Table Nat Signature

/-- What the state says of preparations. -/
def State.desk (s : State) : Desk := ⟨s.thread.preparing, s.held, s.signatures⟩

namespace Desk

variable {d e : Desk} {id : Nat}

/-- The functions that are being prepared. -/
def engaged (d : Desk) : List Nat := d.preparing ++ d.held

theorem not_mem_engaged : id ∉ d.engaged ↔ id ∉ d.preparing ∧ id ∉ d.held :=
  List.mem_append.not.trans not_or

/-- No function is being prepared twice, and none that has been prepared. -/
structure InOrder (d : Desk) : Prop where
  nodup : d.engaged.Nodup
  unsigned : ∀ id ∈ d.engaged, d.signatures.find? id = none

/-- Every signature is still there. -/
def Retains (d e : Desk) : Prop :=
  ∀ id signature, d.signatures.find? id = some signature → e.signatures.find? id = some signature

/-- What the desk may be on the way. -/
structure Onward (d e : Desk) : Prop where
  inOrder : e.InOrder
  /-- The same thread is running and prepares more functions, or another one is and nobody forgot what was being
  prepared. -/
  nested : e.held = d.held ∧ d.preparing <:+ e.preparing ∨ d.engaged <:+ e.held
  retains : d.Retains e

/-- What the desk may be after something was carried through. -/
structure Later (d e : Desk) : Prop where
  inOrder : e.InOrder
  preparing : e.preparing = d.preparing
  held : e.held = d.held
  retains : d.Retains e

theorem Later.refl (h : d.InOrder) : d.Later d := ⟨h, rfl, rfl, fun _ _ h => h⟩

theorem Later.trans {e f : Desk} (h : d.Later e) (h' : e.Later f) : d.Later f :=
  ⟨h'.inOrder, h'.preparing.trans h.preparing, h'.held.trans h.held,
    fun id signature hid => h'.retains id signature (h.retains id signature hid)⟩

theorem Later.engaged_eq (h : d.Later e) : e.engaged = d.engaged := by
  unfold engaged
  rw [h.preparing, h.held]

theorem Later.onward (h : d.Later e) : d.Onward e :=
  ⟨h.inOrder, .inl ⟨h.held, h.preparing ▸ List.suffix_refl _⟩, h.retains⟩

theorem Onward.refl (h : d.InOrder) : d.Onward d := (Later.refl h).onward

/-- What was being prepared still is. -/
theorem Onward.suffix (h : d.Onward e) : d.engaged <:+ e.engaged := by
  rcases h.nested with ⟨hheld, k, hk⟩ | hnested
  · exact ⟨k, by simp [engaged, hheld, ← hk]⟩
  · exact hnested.trans (List.suffix_append _ _)

theorem Onward.trans {e f : Desk} (h : d.Onward e) (h' : e.Onward f) : d.Onward f := by
  refine ⟨h'.inOrder, ?_, fun id signature hid => h'.retains id signature (h.retains id signature hid)⟩
  rcases h'.nested with ⟨hheld', hsuffix'⟩ | hnested'
  · rcases h.nested with ⟨hheld, hsuffix⟩ | hnested
    · exact .inl ⟨hheld'.trans hheld, hsuffix.trans hsuffix'⟩
    · exact .inr (hheld' ▸ hnested)
  · exact .inr (h.suffix.trans hnested')

/-! ## Preparing a function -/

/-- The preparation of a function has begun. -/
def begun (d : Desk) (id : Nat) : Desk := { d with preparing := id :: d.preparing }

/-- The preparation of a function is over. -/
def ended (d : Desk) (id : Nat) : Desk := { d with preparing := d.preparing.erase id }

/-- A function has got its signature. -/
def signed (d : Desk) (id : Nat) (signature : Signature) : Desk :=
  { d with signatures := d.signatures.insert id signature }

theorem InOrder.onward_begun (h : d.InOrder) (hnew : d.signatures.find? id = none)
    (hfree : id ∉ d.engaged) : d.Onward (d.begun id) := by
  refine ⟨⟨List.nodup_cons.2 ⟨hfree, h.nodup⟩, fun other hother => ?_⟩,
    .inl ⟨rfl, List.suffix_cons _ _⟩, fun _ _ h => h⟩
  rcases List.mem_cons.1 hother with rfl | hother
  · exact hnew
  · exact h.unsigned other hother

theorem Later.ended_preparing (h : (d.begun id).Later e) : (e.ended id).preparing = d.preparing := by
  show e.preparing.erase id = d.preparing
  rw [h.preparing]
  exact List.erase_cons_head ..

/-- A function whose preparation failed is not being prepared any more. -/
theorem Later.ended (h : (d.begun id).Later e) : d.Later (e.ended id) := by
  have hengaged : (e.ended id).engaged = d.engaged :=
    congrArg₂ (· ++ ·) h.ended_preparing h.held
  have hbegun : e.engaged = id :: d.engaged := h.engaged_eq
  have hnodup := h.inOrder.nodup
  rw [hbegun] at hnodup
  refine ⟨⟨hengaged ▸ (List.nodup_cons.1 hnodup).2, fun other hother => ?_⟩, h.ended_preparing, h.held,
    h.retains⟩
  rw [hengaged] at hother
  exact h.inOrder.unsigned other (hbegun ▸ List.mem_cons_of_mem _ hother)

/-- A function that has been prepared has got a signature for the first time. -/
theorem Later.signed_ended (h : (d.begun id).Later e) (signature : Signature) :
    d.Later ((e.signed id signature).ended id) := by
  have hended := h.ended
  have hbegun : e.engaged = id :: d.engaged := h.engaged_eq
  have hnodup := h.inOrder.nodup
  rw [hbegun] at hnodup
  have hnew : e.signatures.find? id = none := h.inOrder.unsigned id (hbegun ▸ List.mem_cons_self)
  refine ⟨⟨hended.inOrder.nodup, fun other hother => ?_⟩, hended.preparing, hended.held,
    fun other kept hkept => ?_⟩
  · have hne : other ≠ id := fun heq => (List.nodup_cons.1 hnodup).1 (heq ▸ hended.engaged_eq ▸ hother)
    exact (Table.find?_insert ..).trans ((if_neg hne).trans (hended.inOrder.unsigned other hother))
  · have hthere := h.retains other kept hkept
    have hne : other ≠ id := by
      rintro rfl
      cases hnew.symm.trans hthere
    exact (Table.find?_insert ..).trans ((if_neg hne).trans hthere)

/-! ## Starting a thread -/

/-- Another thread starts, and the one before waits for it. -/
def handed (d : Desk) : Desk := ⟨[], d.engaged, d.signatures⟩

theorem InOrder.onward_handed (h : d.InOrder) : d.Onward d.handed :=
  ⟨⟨h.nodup, h.unsigned⟩, .inr (List.suffix_refl _), fun _ _ h => h⟩

theorem Later.handed (h : d.Later e) : d.handed.Later e.handed :=
  ⟨⟨h.inOrder.nodup, h.inOrder.unsigned⟩, rfl, h.engaged_eq, h.retains⟩

/-- Whatever the other thread was about, the one before goes on preparing what it prepared. -/
theorem Onward.handed_back (h : d.handed.Onward e) :
    d.Later { d with signatures := e.signatures } :=
  ⟨⟨h.inOrder.nodup.sublist h.suffix.sublist,
    fun id hid => h.inOrder.unsigned id (h.suffix.subset hid)⟩, rfl, rfl, h.retains⟩

end Desk

/-! ## Computations that keep the desk -/

/-- Preparations are in order. The stages are the desks onward from `base`. -/
def Regime.orderly (base : Desk) : Regime where
  Stage := Desk
  At d s := base.Onward d ∧ d.Later s.desk
  Rests d s := d.Onward s.desk
  reserve d _ := d
  running d _ := d.handed

namespace Regime

variable {base d : Desk}

theorem stateLaws_orderly : (orderly base).StateLaws where
  rests h := h.2.onward
  world := id
  next := id
  thread {d s t} h ht := by
    refine ⟨h.1, ?_⟩
    show d.Later ⟨t.preparing, s.held, s.signatures⟩
    rw [ht]
    exact h.2
  engage {d s id} h hnew hpreparing hheld := by
    have hbegun := h.2.inOrder.onward_begun hnew (Desk.not_mem_engaged.2 ⟨hpreparing, hheld⟩)
    exact ⟨s.desk.begun id, ⟨fun _ => trivial, fun ht => ⟨h.1, h.2.trans ht.2.ended⟩,
      fun ht signature => ⟨h.1, h.2.trans (ht.2.signed_ended signature)⟩,
      fun ht => h.2.onward.trans (hbegun.trans ht)⟩, h.1.trans (h.2.onward.trans hbegun),
      .refl hbegun.inOrder⟩

theorem scopeLaws_orderly : (orderly base).ScopeLaws where
  above := id
  edit h _ := h
  found _ _ := callee_of_all (fun _ => trivial) trivial _
  create h _ _ := ⟨_, ⟨trivial, fun h _ => h, id, id⟩, h⟩

theorem taskLaws_orderly : (orderly base).TaskLaws where
  launched _ _ _ _ _ _ _ := trivial
  given _ := given_of_breaks trivial (fun _ _ => trivial) _
  works _ _ := ⟨trivial, trivial⟩
  spawned h _ _ _ _ := h
  start h := ⟨h.1.trans h.1.inOrder.onward_handed, h.2.handed⟩
  finish {d s t _} hs ht _ _ := by
    refine ⟨hs.1, ?_⟩
    show d.Later ⟨s.desk.preparing, s.desk.held, t.signatures⟩
    rw [hs.2.preparing, hs.2.held]
    exact ht.handed_back
  park h _ := h
  take {d s} h := by
    have hstage : (orderly base).reserveAll d s.parked = d := List.foldr_fixed s.parked
    rw [hstage]
    exact ⟨h, fun _ _ => trivial⟩
  outcome _ _ _ := trivial

theorem laws_orderly (engine : Engine) : (orderly base).Laws engine where
  toStateLaws := stateLaws_orderly
  toScopeLaws := scopeLaws_orderly
  toTaskLaws := taskLaws_orderly
  toNodeLaws := .of_all (fun _ => trivial) (fun _ => trivial) fun _ => trivial
  toErrorLaws := .of_all (fun _ => trivial) (fun _ => trivial) trivial

theorem lenient_orderly : (orderly base).Lenient d where
  inside _ := trivial
  node _ := trivial
  runnable _ := trivial
  error _ := trivial
  place _ := trivial
  change h _ := h
  create h _ := h
  release h _ := h

end Regime

namespace Desk

variable {d : Desk} {visit visit' : Visit}

/-- What is left of the desk where a computation stops. -/
def Stopped (d : Desk) : Stop → Desk → Prop
  | .crashed, e => d.Later e
  | .blocked, e => d.Onward e

theorem Stopped.onward {k : Stop} {e : Desk} (h : d.Stopped k e) : d.Onward e := by
  cases k with
  | crashed => exact Later.onward h
  | blocked => exact h

/-- The computation keeps the desk, and `x'` does the same. -/
abbrev Keeps (d : Desk) {α : Type} (x x' : Eval α) : Prop :=
  Step.Ensures (fun s => d.Later s.desk) x x' (fun _ s => d.Later s.desk) (fun _ s => d.Later s.desk)
    (d.Stopped · ·.desk)

theorem InOrder.keeps (h : d.InOrder) {α : Type} {x x' : Eval α} (hx : (Regime.orderly d).Keeps d x x') :
    d.Keeps x x' := by
  refine hx.mono (fun _ hs => ⟨.refl h, hs⟩) (fun _ _ h => h.2) (fun _ _ h => h.2.2) fun k s h => ?_
  cases k with
  | crashed => exact h.2.2
  | blocked => exact h

/-- The desk is in order, and visits from those onward from it keep them. -/
structure Orderly (d : Desk) (visit visit' : Visit) : Prop where
  inOrder : d.InOrder
  keeps : (Regime.orderly d).Visits visit visit'

theorem InOrder.orderly_visit {engine : Engine} (h : d.InOrder) (limit : Nat) :
    d.Orderly (Eval.visit engine limit) (Eval.visit engine limit) :=
  ⟨h, (Regime.laws_orderly engine).visits limit⟩

namespace Orderly

variable (h : d.Orderly visit visit')

include h

theorem visits (scope : ScopeId) (n : Node) : d.Keeps (visit scope n) (visit' scope n) :=
  h.inOrder.keeps (h.keeps d scope n trivial trivial)

theorem prepare (scope : ScopeId) (f : ScriptFunction) :
    d.Keeps (Eval.prepare visit scope f) (Eval.prepare visit' scope f) :=
  h.inOrder.keeps ((Regime.laws_orderly .bare).prepare h.keeps trivial trivial)

theorem tryJob (job : Job) : d.Keeps (Eval.tryJob visit job) (Eval.tryJob visit' job) :=
  h.inOrder.keeps ((Regime.laws_orderly .bare).tryJob h.keeps trivial)

/-- **One action.** What a host does keeps the desk. -/
theorem performWith {engine : Engine} (action : Action) :
    d.Keeps (action.performWith engine visit) (action.performWith engine visit') :=
  h.inOrder.keeps ((Regime.laws_orderly engine).performWith h.keeps Regime.lenient_orderly action)

end Orderly

end Desk

end TreeScript
