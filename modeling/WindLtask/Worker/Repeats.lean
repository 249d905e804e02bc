import WindLtask.Worker.StarreLaws

/-!
# A name at several places

The loop of `__close` walks the places of the name list.  Where a name comes again
it moves the cached version once for each changed table and keeps the table of the
last change, while the entry of the patch map is that of the last place.
-/

set_option linter.unusedSectionVars false

namespace WindLtask

variable {Name Addr K V : Type} [DecidableEq Name] [DecidableEq K] [DecidableEq V]

namespace Query

/-- The number of places of a name whose table has been changed. -/
def changesOf (n : Name) : List Name → List (Table K V) → List (Table K V) → Nat
  | name :: names, old :: olds, new :: news =>
      (if name = n ∧ (ltdiff old new).isSome then 1 else 0) + changesOf n names olds news
  | _, _, _ => 0

theorem commit_version (cache : Cache Name K V) (name : Name) (change : Option (Diff K V))
    (new : Table K V) : (commit cache name change new).stateVersion name =
      (cache.stateVersion name).map (· + if change.isSome then 1 else 0) := by
  cases change with
  | none => simp [commit]
  | some diff => simp [commit]

/-- The cached version counts the changed places. -/
theorem closeLoop_version (names : List Name) (cache : Cache Name K V)
    (olds news : List (Table K V)) (n : Name) :
    (closeLoop cache names olds news).1.stateVersion n =
      (cache.stateVersion n).map (· + changesOf n names olds news) := by
  induction names generalizing cache olds news with
  | nil => simp [closeLoop, changesOf]
  | cons name names ih =>
      cases olds with
      | nil => simp [closeLoop, changesOf]
      | cons old olds =>
          cases news with
          | nil => simp [closeLoop, changesOf]
          | cons new news =>
              simp only [closeLoop, changesOf, ih]
              by_cases here : name = n
              · subst here
                rw [commit_version, Option.map_map]
                simp [Function.comp_def, Nat.add_assoc]
              · simp [here, (commit_of_ne cache (ltdiff old new) new (Ne.symm here)).1]

/-- The cached table is the one at the last place, if that has been changed. -/
theorem closeLoop_map {names : List Name} (cache : Cache Name K V) {olds news : List (Table K V)}
    {k : Nat} {n : Name} {old new : Table K V} (atName : names[k]? = some n)
    (atOld : olds[k]? = some old) (atNew : news[k]? = some new)
    (last : ∀ j, k < j → names[j]? ≠ some n) (changed : (ltdiff old new).isSome) :
    (closeLoop cache names olds news).1.stateMap n = some new := by
  induction names generalizing cache olds news k with
  | nil => simp at atName
  | cons name names ih =>
      obtain ⟨first, olds, rfl⟩ : ∃ first rest, olds = first :: rest :=
        List.exists_cons_of_ne_nil (by rintro rfl; simp at atOld)
      obtain ⟨left, news, rfl⟩ : ∃ first rest, news = first :: rest :=
        List.exists_cons_of_ne_nil (by rintro rfl; simp at atNew)
      simp only [closeLoop]
      cases k with
      | zero =>
          simp only [List.getElem?_cons_zero, Option.some.injEq] at atName atOld atNew
          subst atName atOld atNew
          have absent : name ∉ names.take olds.length := by
            intro member
            obtain ⟨j, atJ⟩ := List.mem_iff_getElem?.mp (List.mem_of_mem_take member)
            exact last (j + 1) (Nat.succ_pos j) (by simpa using atJ)
          rw [(closeLoop_of_notMem _ olds news absent).2]
          obtain ⟨diff, found⟩ := Option.isSome_iff_exists.mp changed
          simp [found, commit]
      | succ k =>
          simp only [List.getElem?_cons_succ] at atName atOld atNew
          refine ih _ atName atOld atNew fun j less atJ => ?_
          exact last (j + 1) (Nat.succ_lt_succ less) (by simpa using atJ)

/-- Where no place of a name has been changed the cache keeps its table. -/
theorem closeLoop_map_of_none (names : List Name) (cache : Cache Name K V)
    (olds news : List (Table K V)) {n : Name} (none_ : changesOf n names olds news = 0) :
    (closeLoop cache names olds news).1.stateMap n = cache.stateMap n := by
  induction names generalizing cache olds news with
  | nil => rfl
  | cons name names ih =>
      cases olds with
      | nil => rfl
      | cons old olds =>
          cases news with
          | nil => rfl
          | cons new news =>
              rw [changesOf, Nat.add_eq_zero_iff] at none_
              rw [closeLoop]
              refine (ih _ olds news none_.2).trans ?_
              by_cases here : name = n
              · subst here
                have unchanged : ltdiff old new = none := by simpa using none_.1
                rw [unchanged, commit]
              · exact (commit_of_ne cache (ltdiff old new) new (Ne.symm here)).2

theorem changesOf_of_notMem {names : List Name} (olds news : List (Table K V)) {n : Name}
    (absent : n ∉ names) : changesOf n names olds news = 0 := by
  induction names generalizing olds news with
  | nil => rfl
  | cons name names ih =>
      rw [List.mem_cons, not_or] at absent
      cases olds with
      | nil => rfl
      | cons old olds =>
          cases news with
          | nil => rfl
          | cons new news => simp [changesOf, Ne.symm absent.1, ih olds news absent.2]

/-- The changes of a name before its last place, and the last one. -/
theorem changesOf_last {names : List Name} {olds news : List (Table K V)} {k : Nat} {n : Name}
    {old new : Table K V} (atName : names[k]? = some n) (atOld : olds[k]? = some old)
    (atNew : news[k]? = some new) (last : ∀ j, k < j → names[j]? ≠ some n) :
    ∃ earlier, changesOf n names olds news =
        earlier + (if (ltdiff old new).isSome then 1 else 0) ∧
      (earlier = 0 ↔ ∀ i < k, ∀ first left, names[i]? = some n → olds[i]? = some first →
        news[i]? = some left → ltdiff first left = none) := by
  induction names generalizing olds news k with
  | nil => simp at atName
  | cons name names ih =>
      obtain ⟨first, olds, rfl⟩ : ∃ first rest, olds = first :: rest :=
        List.exists_cons_of_ne_nil (by rintro rfl; simp at atOld)
      obtain ⟨left, news, rfl⟩ : ∃ first rest, news = first :: rest :=
        List.exists_cons_of_ne_nil (by rintro rfl; simp at atNew)
      cases k with
      | zero =>
          simp only [List.getElem?_cons_zero, Option.some.injEq] at atName atOld atNew
          subst atName atOld atNew
          have absent : name ∉ names := by
            intro member
            obtain ⟨j, atJ⟩ := List.mem_iff_getElem?.mp member
            exact last (j + 1) (Nat.succ_pos j) (by simpa using atJ)
          refine ⟨0, ?_, by simp⟩
          simp [changesOf, changesOf_of_notMem olds news absent]
      | succ k =>
          simp only [List.getElem?_cons_succ] at atName atOld atNew
          obtain ⟨earlier, count, unchanged⟩ := ih atName atOld atNew fun j less atJ =>
            last (j + 1) (Nat.succ_lt_succ less) (by simpa using atJ)
          refine ⟨(if name = n ∧ (ltdiff first left).isSome then 1 else 0) + earlier, ?_, ?_⟩
          · rw [changesOf, count, Nat.add_assoc]
          · rw [Nat.add_eq_zero_iff, unchanged, Nat.forall_lt_succ_left]
            simp
end Query

end WindLtask
