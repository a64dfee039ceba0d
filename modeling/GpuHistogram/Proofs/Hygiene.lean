/-
Printed identifiers are hygienic. The last resort for a name is a suffix from outside, so choosing is stated here for any
suffixes: `ids.choose? drawn n` tries those in `drawn` one after the other, and has no result if none of them makes the
text free. `Identifiers.choose` numbers the suffixes, and `choose?_numbered` says that it always finds one.

A `Session` is what happened since nothing was printed or reserved: strings reserved, indentation changed, names printed
with whatever suffixes were drawn. `Session.Kept` is the invariant that ties the strings taken and the identifiers chosen
to it; from it follows `Session.hygienic`: two names of one supply are printed alike exactly if they compare equal, and a
name is never printed as a string reserved before its first printing.
-/
import GpuHistogram.Text.Identifiers
import Mathlib.Data.List.Nodup
import Mathlib.Data.List.Perm.Subperm
import Mathlib.Tactic.Common

namespace GpuHistogram

/-! ## Names of one supply -/

/-- a name whose symbol, if it has one, was given to its text: `texts k` is what symbol `k` was drawn for -/
def Name.Drawn (texts : ℕ → String) (n : Name) : Prop :=
  ∀ k ∈ n.symbol, n.text = texts k

theorem Name.compare_self (n : Name) : n.compare n = .eq := by
  unfold compare
  split <;> simp_all

/-- names of one supply that compare equal are equal -/
theorem Name.Drawn.eq_of_compare {texts : ℕ → String} {n m : Name} (hn : n.Drawn texts) (hm : m.Drawn texts)
    (h : n.compare m = .eq) : n = m := by
  obtain ⟨s, a⟩ := n
  obtain ⟨t, b⟩ := m
  cases a with
  | none =>
    cases b with
    | none =>
      have hst : s = t := Std.LawfulEqOrd.eq_of_compare (show Ord.compare s t = .eq from h)
      rw [hst]
    | some k => exact nomatch (show Ordering.lt = .eq from h)
  | some j =>
    cases b with
    | none => exact nomatch (show Ordering.gt = .eq from h)
    | some k =>
      obtain rfl : j = k := Std.LawfulEqOrd.eq_of_compare (show Ord.compare j k = .eq from h)
      have hst : s = t := (hn j rfl).trans (hm j rfl).symm
      rw [hst]

namespace Identifiers

variable {ids ids' : Identifiers} {n m : Name} {s t : String} {drawn : List String}

/-! ## Choosing with any suffixes -/

/-- a text with the first of the suffixes drawn that makes it free -/
def freeWith? (taken : List String) (text : String) (drawn : List String) : Option String :=
  (drawn.map fun w => text ++ "_" ++ w).find? (· ∉ taken)

/-- the identifier for a name that has none yet -/
def candidate? (drawn taken : List String) (n : Name) : Option String :=
  if n.text ∉ taken then some n.text
  else if n.withSymbol ∉ taken then some n.withSymbol
  else freeWith? taken n.text drawn

/-- the identifier of a name, chosen now if it has none -/
def choose? (ids : Identifiers) (drawn : List String) (n : Name) : Option (String × Identifiers) :=
  match ids.chosen.get? n with
  | some s => some (s, ids)
  | none => (candidate? drawn ids.taken n).map fun s =>
      (s, { ids with taken := s :: ids.taken, chosen := ids.chosen.set n s })

theorem not_mem_of_candidate? {taken : List String} (h : candidate? drawn taken n = some s) : s ∉ taken := by
  unfold candidate? at h
  by_cases h1 : n.text ∈ taken
  · by_cases h2 : n.withSymbol ∈ taken
    · rw [if_neg (not_not.2 h1), if_neg (not_not.2 h2)] at h
      simpa using List.find?_some h
    · rw [if_neg (not_not.2 h1), if_pos h2] at h
      exact Option.some.inj h ▸ h2
  · rw [if_pos h1] at h
    exact Option.some.inj h ▸ h1

/-- a name that has an identifier keeps it, and another gets a free one -/
theorem choose?_cases (h : ids.choose? drawn n = some (s, ids')) :
    (ids.chosen.get? n = some s ∧ ids' = ids) ∨
      (ids.chosen.get? n = none ∧ s ∉ ids.taken ∧
        ids' = { ids with taken := s :: ids.taken, chosen := ids.chosen.set n s }) := by
  unfold choose? at h
  split at h
  · rename_i t ht
    cases h
    exact .inl ⟨ht, rfl⟩
  · rename_i hnone
    obtain ⟨t, ht, he⟩ := Option.map_eq_some_iff.1 h
    cases he
    exact .inr ⟨hnone, not_mem_of_candidate? ht, rfl⟩

/-! ## Numbered suffixes -/

theorem suffix_injective : Function.Injective suffix := by
  intro j k h
  have hvalue (k : ℕ) : Nat.ofDigitChars 10 (suffix k).toList 0 = k := by
    simp only [suffix, String.toList_ofList, Nat.ofDigitChars_append, Nat.ofDigitChars_replicate_zero, Nat.mul_zero]
    exact Nat.ofDigitChars_toDigits (by decide) (by decide)
  rw [← hvalue j, h, hvalue k]

/-- the suffixes that are tried in turn -/
def numbered (count : ℕ) : List String :=
  (List.range count).map suffix

/-- more numbered suffixes than there are strings taken: one of them makes the text free -/
theorem exists_freeWith? (taken : List String) (text : String) :
    ∃ s, freeWith? taken text (numbered (taken.length + 1)) = some s := by
  rw [← Option.isSome_iff_exists, freeWith?, List.find?_isSome]
  by_contra hnone
  have h : ((numbered (taken.length + 1)).map fun w => text ++ "_" ++ w) ⊆ taken := fun s hs => by
    by_contra hfree
    exact hnone ⟨s, hs, by simpa using hfree⟩
  have hinj : Function.Injective fun w => text ++ "_" ++ w := fun v w hvw => by
    have hlist := congrArg String.toList hvw
    simp only [String.toList_append] at hlist
    exact String.toList_injective (List.append_cancel_left hlist)
  have hnodup : ((numbered (taken.length + 1)).map fun w => text ++ "_" ++ w).Nodup :=
    (List.nodup_range.map suffix_injective).map hinj
  have hle := (List.subperm_of_subset hnodup h).length_le
  simp only [numbered, List.length_map, List.length_range] at hle
  omega

/-- **A suffix is always found.** Choosing is choosing with numbered suffixes, and these are enough. -/
theorem choose?_numbered (ids : Identifiers) (n : Name) :
    ids.choose? (numbered (ids.taken.length + 1)) n = some (ids.choose n) := by
  obtain ⟨s, hs⟩ := exists_freeWith? ids.taken n.text
  have hfree : freeWithSuffix ids.taken n.text = s := by
    rw [freeWith?, numbered, List.map_map] at hs
    unfold freeWithSuffix
    exact (congrArg (·.getD n.text) hs).trans rfl
  have hcandidate : candidate? (numbered (ids.taken.length + 1)) ids.taken n = some (candidate ids.taken n) := by
    unfold candidate? candidate
    rw [hs, hfree]
    split_ifs <;> rfl
  unfold choose? choose
  cases ids.chosen.get? n with
  | some t => rfl
  | none =>
    simp only [hcandidate]
    rfl

end Identifiers

/-! ## Sessions -/

/-- what happens while code is printed -/
inductive PrintEvent where
  | reserved (s : String)
  | indented (k : ℕ)
  | printed (n : Name) (s : String)
  deriving DecidableEq

open Identifiers PrintEvent

/-- what has happened since there was nothing, from the first event to the last, and what has been chosen by then -/
inductive Session : List PrintEvent → Identifiers → Prop
  | start : Session [] {}
  | reserve {es : List PrintEvent} {ids : Identifiers} (h : Session es ids) (s : String) :
      Session (es ++ [.reserved s]) (ids.reserve s)
  | indent {es : List PrintEvent} {ids : Identifiers} (h : Session es ids) (k : ℕ) :
      Session (es ++ [.indented k]) { ids with indent := k }
  | print {es : List PrintEvent} {ids ids' : Identifiers} (h : Session es ids) {n : Name} {s : String}
      (drawn : List String) (hs : ids.choose? drawn n = some (s, ids')) : Session (es ++ [.printed n s]) ids'

namespace Session

variable {es pre post : List PrintEvent} {ids : Identifiers} {n m : Name} {s t : String}

/-- what the choices have to do with the events -/
structure Kept (es : List PrintEvent) (ids : Identifiers) : Prop where
  reserved : ∀ s, .reserved s ∈ es → s ∈ ids.taken
  printed : ∀ n s, .printed n s ∈ es → ids.chosen.get? n = some s
  taken : ∀ n s, ids.chosen.get? n = some s → s ∈ ids.taken
  apart : ∀ n m s, ids.chosen.get? n = some s → ids.chosen.get? m = some s → n = m
  origin : ∀ n s, ids.chosen.get? n = some s → .printed n s ∈ es

theorem kept (h : Session es ids) : Kept es ids := by
  induction h with
  | start => exact ⟨by simp, by simp, fun _ _ h => (nomatch h), fun _ _ _ h => (nomatch h), fun _ _ h => (nomatch h)⟩
  | reserve h s ih =>
    refine ⟨fun t ht => ?_, fun n t ht => ?_, fun n t ht => List.mem_cons_of_mem _ (ih.taken n t ht), ih.apart,
      fun n t ht => List.mem_append_left _ (ih.origin n t ht)⟩
    · rcases List.mem_append.1 ht with ht | ht
      · exact List.mem_cons_of_mem _ (ih.reserved t ht)
      · cases List.mem_singleton.1 ht
        exact List.mem_cons_self ..
    · exact ih.printed n t (by simpa using ht)
  | indent h k ih =>
    exact ⟨fun t ht => ih.reserved t (by simpa using ht), fun n t ht => ih.printed n t (by simpa using ht), ih.taken,
      ih.apart, fun n t ht => List.mem_append_left _ (ih.origin n t ht)⟩
  | @print es ids ids' h n s drawn hs ih =>
    rcases choose?_cases hs with ⟨hn, rfl⟩ | ⟨hnone, hfree, rfl⟩
    · refine ⟨fun t ht => ih.reserved t (by simpa using ht), fun m t ht => ?_, ih.taken, ih.apart,
        fun m t ht => List.mem_append_left _ (ih.origin m t ht)⟩
      rcases List.mem_append.1 ht with ht | ht
      · exact ih.printed m t ht
      · cases List.mem_singleton.1 ht
        exact hn
    · -- the new identifier is free, so it belongs to no other name
      have hother (m : Name) (hm : ids.chosen.get? m = some s) : False := hfree (ih.taken m s hm)
      refine ⟨fun t ht => List.mem_cons_of_mem _ (ih.reserved t (by simpa using ht)), fun m t ht => ?_, fun m t ht => ?_,
        fun m m' t ht ht' => ?_, fun m t ht => ?_⟩
      · rw [Bindings.get?_set]
        rcases List.mem_append.1 ht with ht | ht
        · have hm := ih.printed m t ht
          rw [if_neg (by rintro rfl; exact nomatch hnone.symm.trans hm), hm]
        · cases List.mem_singleton.1 ht
          exact if_pos rfl
      · rw [Bindings.get?_set] at ht
        split_ifs at ht
        · exact Option.some.inj ht ▸ List.mem_cons_self ..
        · exact List.mem_cons_of_mem _ (ih.taken m t ht)
      · rw [Bindings.get?_set] at ht ht'
        split_ifs at ht ht' with h1 h2 h2
        · exact h1.symm.trans h2
        · cases ht
          exact (hother m' ht').elim
        · cases ht'
          exact (hother m ht).elim
        · exact ih.apart m m' t ht ht'
      · rw [Bindings.get?_set] at ht
        split_ifs at ht with h1
        · cases ht
          exact h1 ▸ List.mem_append_right _ (List.mem_singleton_self _)
        · exact List.mem_append_left _ (ih.origin m t ht)

/-- the last event of a session belongs to its later part, unless that is empty -/
theorem last_of_append {e : PrintEvent} (he : es ++ [e] = pre ++ post) (hpost : post ≠ []) :
    ∃ post', post = post' ++ [e] ∧ es = pre ++ post' := by
  obtain ⟨post', e', rfl⟩ := (List.eq_nil_or_concat post).resolve_left hpost
  rw [List.concat_eq_append, ← List.append_assoc] at he
  obtain ⟨he', hlast⟩ := List.append_inj' he rfl
  cases hlast
  exact ⟨post', List.concat_eq_append, he'⟩

/-- a name is not printed as a string that was reserved before it was first printed -/
theorem avoids (h : Session es ids) (he : es = pre ++ post) (ht : .reserved t ∈ pre) (hn : ∀ u, .printed n u ∉ pre)
    (hs : .printed n s ∈ post) : s ≠ t := by
  induction h generalizing post with
  | start =>
    rw [(List.append_eq_nil_iff.1 he.symm).1] at ht
    cases ht
  | reserve _ _ ih | indent _ _ ih =>
    obtain ⟨post', rfl, he'⟩ := last_of_append he (List.ne_nil_of_mem hs)
    exact ih he' (by simpa using hs)
  | print h _ hchoose ih =>
    obtain ⟨post', rfl, he'⟩ := last_of_append he (List.ne_nil_of_mem hs)
    rcases List.mem_append.1 hs with hs | hs
    · exact ih he' hs
    cases List.mem_singleton.1 hs
    rcases choose?_cases hchoose with ⟨hold, -⟩ | ⟨-, hfree, -⟩
    · -- the name was printed before, which can only have been in the later part
      have hmem := h.kept.origin n s hold
      rw [he'] at hmem
      exact ih he' ((List.mem_append.1 hmem).resolve_left (hn s))
    · rintro rfl
      exact hfree (h.kept.reserved s (he' ▸ List.mem_append_left _ ht))

/-- **Printed identifiers are hygienic.** Whatever suffixes are drawn: two names of one supply are printed alike exactly
if they compare equal, a name first printed after a string was reserved is never printed as that string, and from every
session printing any name goes on. -/
theorem hygienic {texts : ℕ → String} (h : Session es ids) (hd : ∀ n s, .printed n s ∈ es → n.Drawn texts) :
    (∀ n m s t, .printed n s ∈ es → .printed m t ∈ es → (s = t ↔ n.compare m = .eq)) ∧
      (∀ pre post n s t, es = pre ++ post → .reserved t ∈ pre → (∀ m u, .printed m u ∈ pre → m.compare n ≠ .eq) →
        .printed n s ∈ post → s ≠ t) ∧
      ∀ n, Session (es ++ [.printed n (ids.choose n).1]) (ids.choose n).2 := by
  refine ⟨fun n m s t hn hm => ⟨?_, fun hcmp => ?_⟩, fun pre post n s t he ht hfirst hs => ?_, fun n => ?_⟩
  · rintro rfl
    rw [h.kept.apart n m s (h.kept.printed n s hn) (h.kept.printed m s hm), Name.compare_self]
  · obtain rfl := (hd n s hn).eq_of_compare (hd m t hm) hcmp
    exact Option.some.inj ((h.kept.printed n s hn).symm.trans (h.kept.printed n t hm))
  · exact h.avoids he ht (fun u hu => hfirst n u hu n.compare_self) hs
  · exact h.print (numbered (ids.taken.length + 1)) (choose?_numbered ids n)

/-- a reserved text, a plain name that looks like a symbol form, and the fresh name of that form, which is left with a
suffix and keeps it -/
def crowded : List PrintEvent :=
  [.reserved "x", .printed (.plain "x_3") "x_3", .printed ⟨"x", some 3⟩ "x_q7", .indented 2, .printed ⟨"x", some 3⟩ "x_q7"]

theorem hygienic_crowded : (∃ ids, Session crowded ids) ∧
    ∀ n m s t, .printed n s ∈ crowded → .printed m t ∈ crowded → (s = t ↔ n.compare m = .eq) := by
  have h : Session crowded _ := ((((start.reserve "x").print (n := .plain "x_3") [] rfl).print (n := ⟨"x", some 3⟩)
    ["q7"] rfl).indent 2).print (n := ⟨"x", some 3⟩) [] rfl
  have hdrawn : ∀ n s, .printed n s ∈ crowded → n.Drawn fun _ => "x" := fun n s hn => by
    simp only [crowded, List.mem_cons, PrintEvent.printed.injEq, List.not_mem_nil, reduceCtorEq, or_false, false_or] at hn
    rcases hn with ⟨rfl, -⟩ | ⟨rfl, -⟩ | ⟨rfl, -⟩
    · exact fun k hk => nomatch hk
    · exact fun _ _ => rfl
    · exact fun _ _ => rfl
  exact ⟨⟨_, h⟩, (h.hygienic hdrawn).1⟩

end Session

end GpuHistogram
