/-
  Kaleidoscope.Proofs.Shadowing — what a block leaves of the variables in sight.

  Two things bring a hidden variable back. A block keeps a log of what its variables hide
  and goes through it at its end; a loop keeps what its own variable hides and puts it back
  after its last iteration. Both work on the same slots in sight, and they meet where a loop
  holds a declaration of its own variable: the block's log then has the loop's slot for what
  was hidden, and the end of the block brings that slot back, long after the loop has gone.

  Which names that concerns can be told from the expression (`Expr.shadow`): those that a
  loop of the block both counts with and declares, unless the block declared them before.
  - `afterwards`: what a name will be bound to at the end of the innermost open block. A
    declaration never changes it.
  - `Marks`: lowering changes it as the expression says.
  - `block_bindings`: at the end of a block the open blocks are those from before it, and so
    is the binding of each name that the block does not leak; one that it leaks is bound to
    a slot of the block.
-/

import Kaleidoscope.Proofs.Declarations

namespace Kaleidoscope

/-! ## What an expression does to a name -/

/-- What becomes of a name in the block an expression stands in. -/
structure Shadow where
  /-- The expression declares the name for the rest of the block. -/
  declares : Bool := false
  /-- At the end of the block the name is bound to a slot of the expression. -/
  leaks : Bool := false
  deriving DecidableEq

namespace Shadow

/-- One expression after another: once the name is declared, nothing changes what the end of
    the block brings back. -/
def andThen (h k : Shadow) : Shadow := ⟨h.declares || k.declares, h.leaks || !h.declares && k.leaks⟩

/-- A loop around what its test, body and step do; `own` if the name is the loop's variable. -/
def inLoop (own : Bool) (h : Shadow) : Shadow := if own then ⟨h.declares, h.declares⟩ else h

/-- A block around what its members do. -/
def inBlock (h : Shadow) : Shadow := { leaks := h.leaks }

@[simp] theorem none_andThen (h : Shadow) : Shadow.andThen {} h = h := by
  cases h
  rfl

@[simp] theorem andThen_none (h : Shadow) : h.andThen {} = h := by
  obtain ⟨d, l⟩ := h
  simp [andThen]

end Shadow

namespace Expr

mutual

def shadow (n : String) : Expr → Shadow
  | .number _ => {}
  | .ref _ => {}
  | .var m init => (shadowOption n init).andThen { declares := m == n }
  | .unary _ e => shadow n e
  | .binary op l r => if op = "=" then shadow n r else (shadow n l).andThen (shadow n r)
  | .call _ es => shadowOf n es
  | .cond t y no => (shadow n t).andThen ((shadow n y).andThen (shadowOption n no))
  | .loop m start stop step body =>
    (shadow n start).andThen
      (((shadow n stop).andThen ((shadow n body).andThen (shadowOption n step))).inLoop (m == n))
  | .block es => (shadowOf n es).inBlock

def shadowOption (n : String) : Option Expr → Shadow
  | none => {}
  | some e => shadow n e

def shadowOf (n : String) : List Expr → Shadow
  | [] => {}
  | e :: es => (shadow n e).andThen (shadowOf n es)

end

/-- The block leaves the name bound to a slot of its own. -/
def leaks (members : List Expr) (n : String) : Bool := (shadowOf n members).leaks

end Expr

namespace Lowering

open Ir (Builder Value)

/-! ## What the end of the block brings back -/

/-- What the first declaration of a name in a log hid. -/
def earliest (n : String) : List (String × Option Nat) → Option (Option Nat)
  | [] => none
  | (m, hidden) :: rest => (earliest n rest).or (if m = n then some hidden else none)

/-- What the first declaration of a name in the innermost open block hid. -/
def pinned (n : String) (s : Lowering) : Option (Option Nat) := earliest n (s.scopes.headD [])

/-- What a name will be bound to at the end of the innermost open block, as things stand. -/
def afterwards (n : String) (s : Lowering) : Option Nat := (pinned n s).getD (s.locals.find? n)

variable {n m : String} {s t u : Lowering}

/-- The log is gone through from its latest entry to its first. -/
theorem find?_unwound (n : String) (log : List (String × Option Nat)) (locals : Bindings Nat) :
    (log.foldl (fun l h => l.restore h.1 h.2) locals).find? n = (earliest n log).getD (locals.find? n) := by
  induction log generalizing locals with
  | nil => rfl
  | cons entry log ih =>
    obtain ⟨m, hidden⟩ := entry
    rw [List.foldl_cons, ih, Bindings.find?_restore, earliest]
    cases earliest n log with
    | some h => rfl
    | none => by_cases hm : m = n <;> simp [hm]

theorem closeScope_locals (hs : s.scopes ≠ []) (n : String) : s.closeScope.locals.find? n = afterwards n s := by
  obtain ⟨log, outer, hscopes⟩ := List.exists_cons_of_ne_nil hs
  simp only [closeScope, afterwards, pinned, hscopes, find?_unwound]
  rfl

theorem closeScope_scopes (hs : s.scopes ≠ []) : s.closeScope.scopes = s.scopes.tail := by
  obtain ⟨log, outer, hscopes⟩ := List.exists_cons_of_ne_nil hs
  simp only [closeScope, hscopes, List.tail_cons]

theorem closeScope_builder (s : Lowering) : s.closeScope.builder = s.builder := (scope_closeScope s).2

theorem pinned_of_scopes (h : t.scopes = s.scopes) : pinned n t = pinned n s := by
  rw [pinned, pinned, h]

theorem afterwards_of_pinned {hidden : Option Nat} (h : pinned n s = some hidden) : afterwards n s = hidden := by
  rw [afterwards, h, Option.getD_some]

theorem afterwards_of_unpinned (h : pinned n s = none) : afterwards n s = s.locals.find? n := by
  rw [afterwards, h, Option.getD_none]

theorem pinned_introduce (hs : s.scopes ≠ []) (slot : Nat) :
    pinned n (introduce m slot s) = (pinned n s).or (if m = n then some (s.locals.find? m) else none) := by
  obtain ⟨log, outer, hscopes⟩ := List.exists_cons_of_ne_nil hs
  simp only [pinned, introduce, hscopes, List.headD_cons, earliest]

/-- A declaration hides its name for no longer than its block lasts. -/
theorem afterwards_introduce (hs : s.scopes ≠ []) (slot : Nat) :
    afterwards n (introduce m slot s) = afterwards n s := by
  cases hp : pinned n s with
  | some hidden =>
    have hpt : pinned n (introduce m slot s) = some hidden := by rw [pinned_introduce hs, hp, Option.some_or]
    rw [afterwards_of_pinned hpt, afterwards_of_pinned hp]
  | none =>
    rw [afterwards_of_unpinned hp]
    by_cases hm : m = n
    · have hpt : pinned n (introduce m slot s) = some (s.locals.find? n) := by
        rw [pinned_introduce hs, hp, hm, Option.none_or, if_pos rfl]
      exact afterwards_of_pinned hpt
    · have hpt : pinned n (introduce m slot s) = none := by
        rw [pinned_introduce hs, hp, Option.none_or, if_neg hm]
      rw [afterwards_of_unpinned hpt]
      show (s.locals.insert m slot).find? n = _
      rw [Bindings.find?_insert, if_neg hm]

/-! ## From one state to another -/

/-- The number of slots given out so far. -/
def slots (s : Lowering) : Nat := s.builder.body.slots.size

/-- What was done between two states to a name, at most; slots from `b` on are new. -/
structure Within (b : Nat) (n : String) (h : Shadow) (s t : Lowering) : Prop where
  outer : t.scopes.tail = s.scopes.tail
  inside : t.scopes ≠ []
  slots : b ≤ t.slots
  keeps : ∀ hidden, pinned n s = some hidden → pinned n t = some hidden
  undeclared : h.declares = false → pinned n t = pinned n s
  same : h.leaks = false → afterwards n t = afterwards n s

/-- What was done between two states to a name, exactly. -/
structure Done (b : Nat) (n : String) (h : Shadow) (s t : Lowering) : Prop extends Within b n h s t where
  declared : h.declares = true → ∃ hidden, pinned n t = some hidden
  leaked : h.leaks = true → pinned n s = none → ∃ slot, b ≤ slot ∧ afterwards n t = some slot

variable {b : Nat} {h k : Shadow}

theorem Within.refl (hs : s.scopes ≠ []) (hb : b ≤ s.slots) (h : Shadow) : Within b n h s s :=
  ⟨rfl, hs, hb, fun _ hp => hp, fun _ => rfl, fun _ => rfl⟩

/-- A change that neither the open blocks nor the name notice. -/
theorem Done.unnoticed (hs : s.scopes ≠ []) (hb : b ≤ t.slots) (hscopes : t.scopes = s.scopes)
    (hlocals : t.locals.find? n = s.locals.find? n) : Done b n {} s t where
  outer := congrArg List.tail hscopes
  inside := hscopes ▸ hs
  slots := hb
  keeps _ hp := (pinned_of_scopes hscopes).trans hp
  undeclared _ := pinned_of_scopes hscopes
  same _ := by rw [afterwards, afterwards, pinned_of_scopes hscopes, hlocals]
  declared hd := by cases hd
  leaked hl := by cases hl

theorem Within.weaken (hst : Within b n h s t) (k : Shadow) : Within b n (h.andThen k) s t where
  outer := hst.outer
  inside := hst.inside
  slots := hst.slots
  keeps := hst.keeps
  undeclared hd := hst.undeclared (Bool.or_eq_false_iff.mp hd).1
  same hl := hst.same (Bool.or_eq_false_iff.mp hl).1

theorem Done.within_trans (hst : Done b n h s t) (htu : Within b n k t u) : Within b n (h.andThen k) s u where
  outer := htu.outer.trans hst.outer
  inside := htu.inside
  slots := htu.slots
  keeps hidden hp := htu.keeps hidden (hst.keeps hidden hp)
  undeclared hd := by
    obtain ⟨hh, hk⟩ := Bool.or_eq_false_iff.mp hd
    exact (htu.undeclared hk).trans (hst.undeclared hh)
  same hl := by
    obtain ⟨hh, hk⟩ := Bool.or_eq_false_iff.mp hl
    rw [← hst.same hh]
    cases hd : h.declares with
    | false => exact htu.same (by simpa [hd] using hk)
    | true =>
      obtain ⟨hidden, hp⟩ := hst.declared hd
      rw [afterwards_of_pinned hp, afterwards_of_pinned (htu.keeps hidden hp)]

theorem Done.trans (hst : Done b n h s t) (htu : Done b n k t u) : Done b n (h.andThen k) s u where
  toWithin := hst.within_trans htu.toWithin
  declared hd := by
    rcases Bool.or_eq_true_iff.mp hd with hh | hk
    · obtain ⟨hidden, hp⟩ := hst.declared hh
      exact ⟨hidden, htu.keeps hidden hp⟩
    · exact htu.declared hk
  leaked hl hs := by
    -- Either the name is pinned in between and stays as it is, or the second part decides.
    cases hp : pinned n t with
    | some hidden =>
      have hu : afterwards n u = afterwards n t := by
        rw [afterwards_of_pinned hp, afterwards_of_pinned (htu.keeps hidden hp)]
      have hd : h.declares = true := by
        cases hd : h.declares with
        | true => rfl
        | false => rw [hst.undeclared hd, hs] at hp; cases hp
      rw [hu]
      exact hst.leaked (by simpa [Shadow.andThen, hd] using hl) hs
    | none =>
      cases hk : k.leaks with
      | true => exact htu.leaked hk hp
      | false =>
        rw [htu.same hk]
        exact hst.leaked (by simpa [Shadow.andThen, hk] using hl) hs

/-! ## Putting computations together -/

variable {α β : Type}

/-- The computation does to the name what `h` says, and no more than that if it fails. -/
def Marks (b : Nat) (n : String) (h : Shadow) (x : Lower α) : Prop :=
  ∀ s, s.scopes ≠ [] → b ≤ s.slots →
    Within b n h s (left (x s)) ∧ ∀ a t, x s = .ok a t → Done b n h s t

namespace Marks

variable {x : Lower α} {f : α → Lower β}

/-- A computation that cannot fail. -/
theorem of_ok (hx : ∀ s, s.scopes ≠ [] → b ≤ s.slots → ∃ a t, x s = .ok a t ∧ Done b n h s t) : Marks b n h x := by
  intro s hs hb
  obtain ⟨a, t, hok, hdone⟩ := hx s hs hb
  rw [hok]
  refine ⟨hdone.toWithin, fun a' t' ht => ?_⟩
  cases ht
  exact hdone

theorem pure (a : α) : Marks b n {} (Pure.pure a : Lower α) :=
  of_ok fun s hs hb => ⟨a, s, rfl, .unnoticed hs hb rfl rfl⟩

theorem throw (e : LoweringError) (h : Shadow) : Marks b n h (MonadExcept.throw e : Lower α) := by
  intro s hs hb
  refine ⟨.refl hs hb h, fun a t ht => ?_⟩
  cases ht

theorem bind (hx : Marks b n h x) (hf : ∀ a, Marks b n k (f a)) : Marks b n (h.andThen k) (x >>= f) := by
  intro s hs hb
  obtain ⟨hwithin, hok⟩ := hx s hs hb
  cases hr : x s with
  | error e t =>
    rw [hr] at hwithin
    rw [bind_of_error hr]
    refine ⟨hwithin.weaken k, fun a t ht => ?_⟩
    cases ht
  | ok a t =>
    have hst := hok a t hr
    obtain ⟨htu, hdone⟩ := hf a t hst.inside hst.slots
    rw [bind_of_ok hr]
    exact ⟨hst.within_trans htu, fun a' u hu => hst.trans (hdone a' u hu)⟩

/-- The first computation does nothing to the name. -/
theorem first (hx : Marks b n {} x) (hf : ∀ a, Marks b n h (f a)) : Marks b n h (x >>= f) := by
  simpa using hx.bind hf

/-- Only the first computation does something to the name. -/
theorem last (hx : Marks b n h x) (hf : ∀ a, Marks b n {} (f a)) : Marks b n h (x >>= f) := by
  simpa using hx.bind hf

theorem get {f : Lowering → Lower β} (hf : ∀ s, Marks b n h (f s)) : Marks b n h (MonadState.get >>= f) :=
  fun s => hf s s

theorem build {f : Builder → α × Builder} (hf : ∀ c, c.body.slots.size ≤ (f c).2.body.slots.size) :
    Marks b n {} (Lowering.build f) :=
  of_ok fun s hs hb => ⟨_, _, rfl, .unnoticed hs (Nat.le_trans hb (hf s.builder)) rfl rfl⟩

theorem emit {f : Builder → Builder} (hf : ∀ c, c.body.slots.size ≤ (f c).body.slots.size) :
    Marks b n {} (Lowering.emit f) := build (f := fun c => ((), f c)) hf

/-- A new slot is one from `b` on. -/
theorem alloca {f : Nat → Lower β} (name : String) (hf : ∀ cell, b ≤ cell → Marks b n h (f cell)) :
    Marks b n h (Lowering.build (Builder.alloca name) >>= f) := by
  intro s hs hb
  have hslots : b ≤ (s.withBuilder (s.builder.alloca name).2).slots := by
    refine Nat.le_trans hb ?_
    show _ ≤ (s.builder.body.slots.push name).size
    rw [Array.size_push]
    exact Nat.le_succ _
  have hdone : Done b n {} s (s.withBuilder (s.builder.alloca name).2) := .unnoticed hs hslots rfl rfl
  obtain ⟨hwithin, hok⟩ := hf s.slots hb (s.withBuilder (s.builder.alloca name).2) hs hslots
  have hrun : (Lowering.build (Builder.alloca name) >>= f) s = f s.slots (s.withBuilder (s.builder.alloca name).2) := rfl
  rw [hrun]
  refine ⟨by simpa using hdone.within_trans hwithin, fun a t ht => ?_⟩
  simpa using hdone.trans (hok a t ht)

theorem resolve? (name : String) : Marks b n {} (Lowering.resolve? name) := by
  have hok : ∀ s, ∃ o t, Lowering.resolve? name s = .ok o t := by
    intro s
    unfold Lowering.resolve?
    split
    · exact ⟨_, _, rfl⟩
    · split
      · exact ⟨_, _, rfl⟩
      · exact ⟨_, _, rfl⟩
  refine of_ok fun s hs hb => ?_
  obtain ⟨o, t, ht⟩ := hok s
  obtain ⟨unit, rfl⟩ := resolve?_ok ht
  exact ⟨o, _, ht, .unnoticed hs hb rfl rfl⟩

theorem slotOf (name : String) : Marks b n {} (Lowering.slotOf name) := by
  refine .get fun s => ?_
  split
  · exact .pure _
  · exact .throw _ _

theorem introduce (m : String) (slot : Nat) :
    Marks b n { declares := m == n } (modify (Lowering.introduce m slot) : Lower PUnit) := by
  refine of_ok fun s hs hb => ⟨⟨⟩, Lowering.introduce m slot s, rfl, ?_⟩
  obtain ⟨log, outer, hscopes⟩ := List.exists_cons_of_ne_nil hs
  have hnew : (Lowering.introduce m slot s).scopes = ((m, s.locals.find? m) :: log) :: outer := by
    simp only [Lowering.introduce, hscopes]
  have hpinned := pinned_introduce (n := n) (m := m) hs slot
  refine ⟨⟨?_, ?_, hb, fun hidden hp => ?_, fun hd => ?_, fun _ => afterwards_introduce hs slot⟩, fun hd => ?_, fun hl => ?_⟩
  · rw [hnew, hscopes]
    rfl
  · rw [hnew]
    exact List.cons_ne_nil _ _
  · rw [hpinned, hp, Option.some_or]
  · rw [hpinned, if_neg (by simpa using hd), Option.or_none]
  · rw [hpinned, if_pos (by simpa using hd)]
    cases pinned n s with
    | none => exact ⟨_, rfl⟩
    | some hidden => exact ⟨_, rfl⟩
  · cases hl

end Marks

/-! ## Loops and blocks -/

/-- A loop's own variable is bound to its slot and set back to what it hid. -/
def whileBound (m : String) (cell : Nat) (x : Lower α) : Lower α := do
  let hidden := (← get).locals.find? m
  modify (bind m cell)
  ensuring x (restore m hidden)

def inScope (x : Lower α) : Lower α := do
  modify openScope
  ensuring x closeScope

/-- What `ensuring` leaves. -/
theorem left_ensuring (x : Lower α) (after : Lowering → Lowering) (s : Lowering) :
    left (ensuring x after s) = after (left (x s)) := by
  unfold ensuring
  cases x s with
  | ok a t => rfl
  | error e t => rfl

theorem pinned_bind (n m : String) (cell : Nat) (s : Lowering) : pinned n (s.bind m cell) = pinned n s := rfl

theorem pinned_restore (n m : String) (hidden : Option Nat) (s : Lowering) :
    pinned n (s.restore m hidden) = pinned n s := rfl

/-- Another name than the loop's variable does not notice the loop. -/
theorem afterwards_bind (hm : m ≠ n) (cell : Nat) (s : Lowering) : afterwards n (s.bind m cell) = afterwards n s := by
  rw [afterwards, afterwards, pinned_bind]
  show (pinned n s).getD ((s.locals.insert m cell).find? n) = _
  rw [Bindings.find?_insert, if_neg hm]

theorem afterwards_restore (hm : m ≠ n) (hidden : Option Nat) (s : Lowering) :
    afterwards n (s.restore m hidden) = afterwards n s := by
  rw [afterwards, afterwards, pinned_restore]
  show (pinned n s).getD ((s.locals.restore m hidden).find? n) = _
  rw [Bindings.find?_restore, if_neg hm]

theorem within_loop {cell : Nat} (hst : Within b n h (s.bind m cell) t) :
    Within b n (h.inLoop (m == n)) s (t.restore m (s.locals.find? m)) where
  outer := hst.outer
  inside := hst.inside
  slots := hst.slots
  keeps := hst.keeps
  undeclared hd := by
    refine hst.undeclared ?_
    by_cases hm : m = n <;> simpa [Shadow.inLoop, hm] using hd
  same hl := by
    by_cases hm : m = n
    · -- Nothing was pinned inside the loop, so what counts is the binding, and it is put back.
      subst hm
      have hd : h.declares = false := by simpa [Shadow.inLoop] using hl
      rw [afterwards, afterwards, pinned_restore, hst.undeclared hd, pinned_bind]
      show (pinned m s).getD ((t.locals.restore m _).find? m) = _
      rw [Bindings.find?_restore, if_pos rfl]
    · have hl' : h.leaks = false := by simpa [Shadow.inLoop, hm] using hl
      rw [afterwards_restore hm, hst.same hl', afterwards_bind hm]

theorem done_loop {cell : Nat} (hcell : b ≤ cell) (hst : Done b n h (s.bind m cell) t) :
    Done b n (h.inLoop (m == n)) s (t.restore m (s.locals.find? m)) where
  toWithin := within_loop hst.toWithin
  declared hd := by
    refine hst.declared ?_
    by_cases hm : m = n <;> simpa [Shadow.inLoop, hm] using hd
  leaked hl hs := by
    by_cases hm : m = n
    · subst hm
      have hd : h.declares = true := by simpa [Shadow.inLoop] using hl
      obtain ⟨hidden, hp⟩ := hst.declared hd
      have hkept : afterwards m (t.restore m (s.locals.find? m)) = afterwards m t := by
        rw [afterwards_of_pinned hp, afterwards_of_pinned ((pinned_restore m m _ t).trans hp)]
      rw [hkept]
      -- What the first declaration in the loop hid is the loop's slot, or one of an inner loop.
      cases hl' : h.leaks with
      | true => exact hst.leaked hl' hs
      | false =>
        refine ⟨cell, hcell, ?_⟩
        rw [hst.same hl', afterwards_of_unpinned ((pinned_bind m m cell s).trans hs)]
        show (s.locals.insert m cell).find? m = _
        rw [Bindings.find?_insert, if_pos rfl]
    · have hl' : h.leaks = true := by simpa [Shadow.inLoop, hm] using hl
      rw [afterwards_restore hm]
      exact hst.leaked hl' hs

theorem Marks.whileBound {x : Lower α} {cell : Nat} (hx : Marks b n h x) (hcell : b ≤ cell) (m : String) :
    Marks b n (h.inLoop (m == n)) (whileBound m cell x) := by
  intro s hs hb
  obtain ⟨hwithin, hok⟩ := hx (s.bind m cell) hs hb
  have hrun : Lowering.whileBound m cell x s = ensuring x (restore m (s.locals.find? m)) (s.bind m cell) := rfl
  rw [hrun, left_ensuring]
  refine ⟨within_loop hwithin, fun a u hu => ?_⟩
  obtain ⟨t, ht, rfl⟩ := ensuring_ok_iff.mp hu
  exact done_loop hcell (hok a t ht)

/-- At the end of a block all open blocks are as before, and a name has the binding it had
    or, if it leaked, one to a slot of the block. -/
theorem inScope_run {x : Lower α} (hx : Marks b n h x) (hb : b ≤ s.slots) :
    (left (inScope x s)).scopes = s.scopes ∧ b ≤ (left (inScope x s)).slots ∧
    (h.leaks = false → (left (inScope x s)).locals.find? n = s.locals.find? n) ∧
    (h.leaks = true → ∀ a t, inScope x s = .ok a t → ∃ slot, b ≤ slot ∧ t.locals.find? n = some slot) := by
  have hopen : s.openScope.scopes ≠ [] := List.cons_ne_nil _ _
  obtain ⟨hwithin, hok⟩ := hx s.openScope hopen hb
  have hrun : inScope x s = ensuring x closeScope s.openScope := rfl
  rw [hrun, left_ensuring, closeScope_scopes hwithin.inside, closeScope_locals hwithin.inside]
  refine ⟨hwithin.outer, ?_, hwithin.same, fun hl a u hu => ?_⟩
  · rw [slots, closeScope_builder]
    exact hwithin.slots
  · obtain ⟨t, ht, rfl⟩ := ensuring_ok_iff.mp hu
    have hdone := hok a t ht
    rw [closeScope_locals hdone.inside]
    exact hdone.leaked hl rfl

theorem Marks.inScope {x : Lower α} (hx : Marks b n h x) : Marks b n h.inBlock (inScope x) := by
  intro s hs hb
  obtain ⟨hscopes, hslots, hsame, hleaked⟩ := inScope_run (s := s) hx hb
  have hwithin : Within b n h.inBlock s (left (Lowering.inScope x s)) :=
    { outer := congrArg List.tail hscopes
      inside := hscopes ▸ hs
      slots := hslots
      keeps := fun _ hp => (pinned_of_scopes hscopes).trans hp
      undeclared := fun _ => pinned_of_scopes hscopes
      same := fun hl => by rw [afterwards, afterwards, pinned_of_scopes hscopes, hsame hl] }
  refine ⟨hwithin, fun a t ht => ?_⟩
  rw [ht] at hwithin
  refine { toWithin := hwithin, declared := nofun, leaked := fun hl hp => ?_ }
  have hpt : pinned n t = none := (hwithin.undeclared rfl).trans hp
  rw [afterwards_of_unpinned hpt]
  exact hleaked hl a t ht

/-! ## Lowering -/

theorem combine_marks (op : String) (v w : Value) : Marks b n {} (combine op v w) := by
  unfold combine
  split
  · exact .build fun _ => Nat.le_refl _
  · exact .build fun _ => Nat.le_refl _
  · exact .build fun _ => Nat.le_refl _
  · exact Marks.first (.build fun _ => Nat.le_refl _) fun _ => .build fun _ => Nat.le_refl _
  · refine (Marks.resolve? _).first fun o => ?_
    split
    · exact .build fun _ => Nat.le_refl _
    · exact .throw _ _

theorem lowerOption_marks {o : Option Expr} (ho : ∀ e ∈ o, Marks b n (e.shadow n) (lower e)) :
    Marks b n (Expr.shadowOption n o) (lowerOption o) := by
  cases o with
  | none =>
    simp only [Expr.shadowOption, lowerOption]
    exact .pure _
  | some e =>
    simp only [Expr.shadowOption, lowerOption]
    exact ho e rfl

theorem lowerArguments_marks {es : List Expr} (hes : ∀ e ∈ es, Marks b n (e.shadow n) (lower e)) :
    Marks b n (Expr.shadowOf n es) (lowerArguments es) := by
  induction es with
  | nil =>
    simp only [Expr.shadowOf, lowerArguments]
    exact .pure _
  | cons e es ih =>
    simp only [Expr.shadowOf, lowerArguments]
    have hrest := ih fun e he => hes e (List.mem_cons_of_mem _ he)
    exact (hes e List.mem_cons_self).bind fun v => hrest.last fun vs => .pure _

theorem lowerMembers_marks {es : List Expr} (hes : ∀ e ∈ es, Marks b n (e.shadow n) (lower e)) (last : Value) :
    Marks b n (Expr.shadowOf n es) (lowerMembers es last) := by
  induction es generalizing last with
  | nil =>
    simp only [Expr.shadowOf, lowerMembers]
    exact .pure _
  | cons e es ih =>
    simp only [Expr.shadowOf, lowerMembers]
    exact (hes e List.mem_cons_self).bind fun v => ih (fun e he => hes e (List.mem_cons_of_mem _ he)) v

theorem lower_marks (b : Nat) (n : String) (e : Expr) : Marks b n (e.shadow n) (lower e) := by
  induction e using Expr.induction with
  | number x =>
    simp only [Expr.shadow, lower]
    exact .pure _
  | ref name =>
    simp only [Expr.shadow, lower]
    exact (Marks.slotOf name).first fun _ => .build fun _ => Nat.le_refl _
  | var name init ih =>
    simp only [Expr.shadow, lower]
    refine (lowerOption_marks ih).bind fun v => .alloca name fun slot _ => ?_
    refine Marks.first (.emit fun _ => Nat.le_refl _) fun _ => ?_
    exact (Marks.introduce name slot).last fun _ => .pure _
  | unary op operand ih =>
    simp only [Expr.shadow, lower]
    refine ih.last fun v => (Marks.resolve? _).first fun o => ?_
    split
    · exact .build fun _ => Nat.le_refl _
    · exact .throw _ _
  | binary op lhs rhs ihl ihr =>
    by_cases hop : op = "="
    · cases lhs with
      | ref name =>
        simp only [Expr.shadow, lower, if_pos hop]
        refine ihr.last fun v => (Marks.slotOf name).first fun slot => ?_
        exact Marks.first (.emit fun _ => Nat.le_refl _) fun _ => .pure _
      | _ =>
        simp only [lower, if_pos hop]
        exact .throw _ _
    · simp only [Expr.shadow, lower, if_neg hop]
      exact ihl.bind fun v => ihr.last fun w => combine_marks op v w
  | call callee args ih =>
    simp only [Expr.shadow, lower]
    refine (Marks.resolve? callee).first fun o => ?_
    split
    · exact .throw _ _
    · split
      · exact (lowerArguments_marks ih).last fun _ => .build fun _ => Nat.le_refl _
      · exact .throw _ _
  | cond test yes no iht ihy ihn =>
    rw [lower_cond]
    simp only [Expr.shadow]
    refine .alloca _ fun place _ => iht.bind fun t => Marks.first (.build fun _ => Nat.le_refl _) fun k => ?_
    refine ihy.bind fun y => Marks.first (.emit fun _ => Nat.le_refl _) fun _ => ?_
    refine (lowerOption_marks ihn).last fun v => Marks.first (.emit fun _ => Nat.le_refl _) fun _ => ?_
    exact .build fun _ => Nat.le_refl _
  | loop name start stop step body ihstart ihstop ihstep ihbody =>
    rw [lower_loop]
    simp only [Expr.shadow]
    refine .alloca _ fun cell hcell => ihstart.bind fun v => Marks.first (.build fun _ => Nat.le_refl _) fun k => ?_
    refine Marks.last (x := whileBound name cell _) (.whileBound ?_ hcell name) fun _ => .pure _
    refine ihstop.bind fun t => Marks.first (.emit fun _ => Nat.le_refl _) fun _ => ihbody.bind fun _ => ?_
    exact (lowerOption_marks ihstep).last fun next => .emit fun _ => Nat.le_refl _
  | block members ih =>
    simp only [Expr.shadow, lower]
    exact (lowerMembers_marks ih zero).inScope

/-- After a block, whether it was lowered or failed somewhere, the open blocks are those from
    before it, and each name that the block does not leak is bound to what it was bound to
    before. A name that it leaks is bound, once the block is lowered, to a slot that was not
    there before it. -/
theorem block_bindings (members : List Expr) (s : Lowering) :
    (left (lower (.block members) s)).scopes = s.scopes ∧
    ∀ n,
      (Expr.leaks members n = false → (left (lower (.block members) s)).locals.find? n = s.locals.find? n) ∧
      (Expr.leaks members n = true → ∀ v s', lower (.block members) s = .ok v s' →
        ∃ slot, s.builder.body.slots.size ≤ slot ∧ s'.locals.find? n = some slot) := by
  have hmarks : ∀ n, Marks s.slots n (Expr.shadowOf n members) (lowerMembers members zero) := fun n =>
    lowerMembers_marks (fun e _ => lower_marks s.slots n e) zero
  have hblock : lower (.block members) = inScope (lowerMembers members zero) := by
    simp only [lower]
    rfl
  rw [hblock]
  refine ⟨(inScope_run (hmarks "") (Nat.le_refl _)).1, fun n => ?_⟩
  obtain ⟨-, -, hsame, hleaked⟩ := inScope_run (hmarks n) (Nat.le_refl _)
  exact ⟨hsame, hleaked⟩

/-! A variable, and a block with a loop that declares its own variable while it tests. The
block leaks the loop's slot; had it declared the name before the loop, it would not. -/

def parameterInSight : Lowering where
  unit := { name := "unit" }
  builder := { body := { slots := #["i"] } }
  locals := [("i", 0)]

def declaringLoop : Expr := .loop "i" (.number 0) (.var "i" (some (.number 0))) none (.block [])

theorem block_bindings_declaringLoop :
    (∃ v s', lower (.block [declaringLoop]) parameterInSight = .ok v s' ∧
      s'.scopes = parameterInSight.scopes ∧ ∃ slot, 1 ≤ slot ∧ s'.locals.find? "i" = some slot) ∧
    ∃ v s', lower (.block [.var "i" none, declaringLoop]) parameterInSight = .ok v s' ∧
      s'.locals.find? "i" = parameterInSight.locals.find? "i" := by
  have hleaks : Expr.leaks [declaringLoop] "i" = true := by decide
  have hkeeps : Expr.leaks [.var "i" none, declaringLoop] "i" = false := by decide
  obtain ⟨v, s', hlower⟩ : ∃ v s', lower (.block [declaringLoop]) parameterInSight = .ok v s' := by
    simp only [declaringLoop, lower, lowerMembers, lowerOption]
    exact ⟨_, _, rfl⟩
  obtain ⟨w, t, hdeclared⟩ : ∃ v s', lower (.block [.var "i" none, declaringLoop]) parameterInSight = .ok v s' := by
    simp only [declaringLoop, lower, lowerMembers, lowerOption]
    exact ⟨_, _, rfl⟩
  have hleft := block_bindings [declaringLoop] parameterInSight
  have hright := block_bindings [.var "i" none, declaringLoop] parameterInSight
  rw [hlower] at hleft
  rw [hdeclared] at hright
  exact ⟨⟨v, s', hlower, hleft.1, (hleft.2 "i").2 hleaks v s' rfl⟩, w, t, hdeclared, (hright.2 "i").1 hkeeps⟩

end Lowering

end Kaleidoscope
