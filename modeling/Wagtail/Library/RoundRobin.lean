import Mathlib.Data.List.Nodup
import Mathlib.Data.List.Infix
import Wagtail.Library.Runs

/-!
# Round robin

What waits for a turn is in a queue, and what has had the last one may be the current one,
which goes to the back at the next turn. Turns are taken in the order of the queue, and of
two that stay, neither gets ahead of the other by more than one turn.
-/
namespace RoundRobin

open Runs (Run Guarded)

variable {α : Type}

/-! ## Rotas -/

structure Rota (α : Type) where
  queue : List α
  current : Option α
  deriving DecidableEq, Repr

/-- The order of the next turns. -/
def Rota.members (r : Rota α) : List α := r.queue ++ r.current.toList

inductive Event (α : Type) where
  | turn (a : α)
  | join (a : α)
  | pause
  | leave (a : α)
  deriving DecidableEq, Repr

/-- What takes a turn becomes the current one, or goes to the back again. -/
inductive Step : Rota α → Event α → Rota α → Prop where
  | run {r : Rota α} {a : α} {rest : List α} :
      r.members = a :: rest → Step r (.turn a) ⟨rest, some a⟩
  | pass {r : Rota α} {a : α} {rest : List α} :
      r.members = a :: rest → Step r (.turn a) ⟨rest ++ [a], none⟩
  | join {r : Rota α} {a : α} :
      a ∉ r.members → Step r (.join a) ⟨r.queue ++ [a], r.current⟩
  | pause {queue : List α} {a : α} : Step ⟨queue, some a⟩ .pause ⟨queue ++ [a], none⟩
  | leave {queue : List α} {a : α} : Step ⟨queue, some a⟩ (.leave a) ⟨queue, none⟩

def Event.turn? : Event α → Option α
  | .turn a => some a
  | _ => none

/-- Who has taken the turns, in order. -/
def turns (es : List (Event α)) : List α := es.filterMap Event.turn?

@[simp] theorem turns_nil : turns ([] : List (Event α)) = [] := rfl

theorem turns_snoc (es : List (Event α)) (e : Event α) :
    turns (es ++ [e]) = turns es ++ e.turn?.toList := by
  cases e <;> simp [turns, Event.turn?]

variable {r s t : Rota α} {e : Event α} {es : List (Event α)} {a b x : α}

/-! ## Members -/

theorem Step.members (h : Step r e s) : match e with
    | .turn x => ∃ rest, r.members = x :: rest ∧ s.members = rest ++ [x]
    | .join x => x ∉ r.members ∧ s.members = r.queue ++ x :: r.current.toList
    | .pause => s.members = r.members
    | .leave x => r.members = s.members ++ [x] := by
  cases h with
  | run hmembers => exact ⟨_, hmembers, rfl⟩
  | pass hmembers => exact ⟨_, hmembers, by simp [Rota.members]⟩
  | join hnew => exact ⟨hnew, by simp [Rota.members]⟩
  | pause | leave => simp [Rota.members]

theorem Step.nodup (h : Step r e s) (hnodup : r.members.Nodup) : s.members.Nodup := by
  have hmembers := h.members
  cases e with
  | turn x =>
    obtain ⟨rest, hr, hs⟩ := hmembers
    rw [hr] at hnodup
    rw [hs]
    exact (List.perm_append_singleton x rest).nodup_iff.mpr hnodup
  | join x =>
    obtain ⟨hnew, hs⟩ := hmembers
    rw [hs]
    exact List.nodup_middle.mpr (List.nodup_cons.mpr ⟨hnew, hnodup⟩)
  | pause => exact hmembers ▸ hnodup
  | leave x => exact (hmembers ▸ hnodup).of_append_left

/-! ## Turns in order -/

/-- A turn is taken from the front; everything else leaves the front alone. -/
theorem Step.queue (h : Step r e s) :
    (e.turn? = none ∧ ∃ appended, s.queue = r.queue ++ appended) ∨
      ∃ x rest appended, e.turn? = some x ∧ r.members = x :: rest ∧ s.queue = rest ++ appended := by
  cases h with
  | run hmembers => exact .inr ⟨_, _, [], rfl, hmembers, (List.append_nil _).symm⟩
  | pass hmembers => exact .inr ⟨_, _, _, rfl, hmembers, rfl⟩
  | join => exact .inl ⟨rfl, _, rfl⟩
  | pause => exact .inl ⟨rfl, _, rfl⟩
  | leave => exact .inl ⟨rfl, [], (List.append_nil _).symm⟩

/-- What waits takes its turn when everything ahead of it has, and not before. -/
theorem run_in_turn (hrun : Run Step r es s) : turns es <+: r.queue ∨ r.queue <+: turns es := by
  have hboth : (∃ rest appended, r.queue = turns es ++ rest ∧ s.queue = rest ++ appended) ∨
      r.queue <+: turns es := by
    refine hrun.history (P := fun es s => (∃ rest appended, r.queue = turns es ++ rest ∧
      s.queue = rest ++ appended) ∨ r.queue <+: turns es) (.inl ⟨r.queue, [], rfl, by simp⟩) ?_
    rintro es s e t (⟨rest, appended, hr, hs⟩ | hearlier) hstep
    · obtain ⟨hnone, appended', ht⟩ | ⟨x, rest', appended', hsome, hmembers, ht⟩ := hstep.queue
      · refine .inl ⟨rest, appended ++ appended', ?_, ?_⟩
        · rw [turns_snoc, hnone, Option.toList_none, List.append_nil, hr]
        · rw [ht, hs, List.append_assoc]
      · rw [turns_snoc, hsome, Option.toList_some]
        rw [Rota.members, hs] at hmembers
        cases rest with
        | nil => exact .inr ⟨[x], by rw [hr, List.append_nil]⟩
        | cons y rest =>
          obtain ⟨rfl, rfl⟩ := List.cons.inj hmembers
          refine .inl ⟨rest, appended ++ s.current.toList ++ appended', ?_, ?_⟩
          · rw [hr, List.append_assoc, List.singleton_append]
          · rw [ht]
            simp only [List.append_eq, List.append_assoc]
    · refine .inr (hearlier.trans ?_)
      rw [turns_snoc]
      exact List.prefix_append ..
  obtain ⟨rest, -, hr, -⟩ | hearlier := hboth
  · exact .inl ⟨rest, hr.symm⟩
  · exact .inr hearlier

/-! ## Fair turns -/

/-- One is ahead of the other, and both have taken as many turns, or it is behind and has taken
one more. -/
def Alternate [DecidableEq α] (a b : α) (taken members : List α) : Prop :=
  ([a, b].Sublist members ∧ taken.count a = taken.count b) ∨
    ([b, a].Sublist members ∧ taken.count a = taken.count b + 1)

theorem sublist_turn {rest : List α} (h : [a, b].Sublist (x :: rest)) (hx : x ≠ a) :
    [a, b].Sublist (rest ++ [x]) :=
  (h.of_cons_of_ne hx.symm).trans (List.sublist_append_left ..)

theorem sublist_rotate {rest : List α} (h : [a, b].Sublist (a :: rest)) :
    [b, a].Sublist (rest ++ [a]) :=
  (List.cons_sublist_cons.mp h).append (List.Sublist.refl [a])

theorem not_sublist_of_nodup {rest : List α} (hnodup : (a :: rest).Nodup) (hab : b ≠ a) :
    ¬[b, a].Sublist (a :: rest) := fun h =>
  (List.nodup_cons.mp hnodup).1 ((h.of_cons_of_ne hab).subset (by simp))

theorem sublist_leave (h : [a, b].Sublist (s.members ++ [x])) (hx : x ≠ b) :
    [a, b].Sublist s.members := by
  have hreverse := h.reverse
  rw [List.reverse_append] at hreverse
  have hbehind : [b, a].Sublist s.members.reverse := hreverse.of_cons_of_ne hx.symm
  simpa using hbehind.reverse

theorem Step.alternate [DecidableEq α] (h : Step r e s) (hab : a ≠ b)
    (hnodup : r.members.Nodup) (hstay : e ≠ .leave a ∧ e ≠ .leave b) {taken : List α}
    (halternate : Alternate a b taken r.members) :
    Alternate a b (taken ++ e.turn?.toList) s.members := by
  have hmembers := h.members
  cases e with
  | turn x =>
    obtain ⟨rest, hr, hs⟩ := hmembers
    rw [hr] at hnodup
    rw [Alternate, hr] at halternate
    rw [Alternate, hs]
    simp only [Event.turn?, Option.toList_some, List.count_append]
    obtain ⟨hahead, hcount⟩ | ⟨hbehind, hcount⟩ := halternate
    · by_cases hxa : x = a
      · subst hxa
        refine .inr ⟨sublist_rotate hahead, ?_⟩
        rw [List.count_singleton_self, List.count_singleton, if_neg (by simpa using hab), hcount]
      · have hxb : x ≠ b := by
          rintro rfl
          exact not_sublist_of_nodup hnodup hab hahead
        refine .inl ⟨sublist_turn hahead hxa, ?_⟩
        rw [List.count_singleton, List.count_singleton, if_neg (by simpa using hxa),
          if_neg (by simpa using hxb), hcount]
    · by_cases hxb : x = b
      · subst hxb
        refine .inl ⟨sublist_rotate hbehind, ?_⟩
        rw [List.count_singleton_self, List.count_singleton, if_neg (by simpa using hab.symm), hcount]
      · have hxa : x ≠ a := by
          rintro rfl
          exact not_sublist_of_nodup hnodup hab.symm hbehind
        refine .inr ⟨sublist_turn hbehind hxb, ?_⟩
        rw [List.count_singleton, List.count_singleton, if_neg (by simpa using hxa),
          if_neg (by simpa using hxb), hcount]
  | join x =>
    obtain ⟨-, hs⟩ := hmembers
    have hsublist : r.members.Sublist s.members := by
      rw [hs]
      exact (List.Sublist.refl _).append (List.sublist_cons_self ..)
    simp only [Event.turn?, Option.toList_none, List.append_nil]
    exact halternate.imp (fun h => ⟨h.1.trans hsublist, h.2⟩) fun h => ⟨h.1.trans hsublist, h.2⟩
  | pause =>
    rw [hmembers]
    simpa [Event.turn?] using halternate
  | leave x =>
    have hxa : x ≠ a := fun he => hstay.1 (congrArg _ he)
    have hxb : x ≠ b := fun he => hstay.2 (congrArg _ he)
    rw [Alternate, hmembers] at halternate
    simp only [Event.turn?, Option.toList_none, List.append_nil]
    exact halternate.imp (fun h => ⟨sublist_leave h.1 hxb, h.2⟩)
      fun h => ⟨sublist_leave h.1 hxa, h.2⟩

theorem sublist_of_mem {l : List α} (hab : a ≠ b) (ha : a ∈ l) (hb : b ∈ l) :
    [a, b].Sublist l ∨ [b, a].Sublist l := by
  obtain ⟨front, back, rfl⟩ := List.append_of_mem ha
  obtain hb | hb := List.mem_append.mp hb
  · exact .inr ((List.singleton_sublist.mpr hb).append (List.singleton_sublist.mpr (by simp)))
  · refine .inl (List.Sublist.trans ?_ (List.sublist_append_right ..))
    obtain hb | hb := List.mem_cons.mp hb
    · exact absurd hb hab.symm
    · exact List.cons_sublist_cons.mpr (List.singleton_sublist.mpr hb)

/-- The steps in which neither of the two leaves. -/
def Stay (a b : α) (_ : Rota α) (e : Event α) : Prop := e ≠ .leave a ∧ e ≠ .leave b

theorem run_alternate [DecidableEq α] (hrun : Run (Guarded (Stay a b) Step) r es s) (hab : a ≠ b)
    (hnodup : r.members.Nodup) (hahead : [a, b].Sublist r.members) :
    Alternate a b (turns es) s.members := by
  refine (hrun.history (P := fun es s => s.members.Nodup ∧ Alternate a b (turns es) s.members)
    ⟨hnodup, .inl ⟨hahead, rfl⟩⟩ fun es s e t ⟨hnodup, halternate⟩ ⟨hstay, hstep⟩ => ?_).2
  rw [turns_snoc]
  exact ⟨hstep.nodup hnodup, hstep.alternate hab hnodup hstay halternate⟩

/-- Two that stay take turns: neither gets ahead of the other by more than one. -/
theorem run_balanced [DecidableEq α] (hrun : Run (Guarded (Stay a b) Step) r es s)
    (hnodup : r.members.Nodup) (ha : a ∈ r.members) (hb : b ∈ r.members) :
    (turns es).count a ≤ (turns es).count b + 1 ∧
      (turns es).count b ≤ (turns es).count a + 1 := by
  by_cases hab : a = b
  · subst hab
    omega
  obtain hahead | hbehind := sublist_of_mem hab ha hb
  · obtain ⟨-, hcount⟩ | ⟨-, hcount⟩ := run_alternate hrun hab hnodup hahead <;> omega
  · have hswap : Run (Guarded (Stay b a) Step) r es s :=
      hrun.mono fun _ _ _ ⟨hstay, hstep⟩ => ⟨hstay.symm, hstep⟩
    obtain ⟨-, hcount⟩ | ⟨-, hcount⟩ := run_alternate hswap (Ne.symm hab) hnodup hbehind <;> omega

end RoundRobin
