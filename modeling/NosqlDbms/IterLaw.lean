import NosqlDbms.Reading
import Mathlib.Tactic

/-!
# The iterator as a concatenation

Collecting what an iterator hands out is the same as searching the extents
sections one after the other.  Searching changes no list of sections, so the
iterator meets the sections there are at the start.
-/

namespace NosqlDbms

/-! ## Searching keeps the sections -/

def File.extentsCount (file : File) : ℕ := file.extents.length

section Past

variable (past : Str → List Byte) (depth : ℕ) (query : Query)

theorem keeps_extentsCount (index : ℕ) :
    (fileFind past depth index query).Keeps File.extentsCount :=
  (keeps_fileFind past depth query index).comp
    (fun heads => heads.2.1.length)

theorem unfailing_fileFindFrom (foffs : List ℕ) :
    (fileFindFrom past depth query foffs).Unfailing := by
  induction foffs with
  | nil => exact Prog.unfailing_pure _
  | cons foff rest ih =>
      rw [fileFindFrom]
      apply Prog.Unfailing.bind (Prog.unfailing_status _)
      intro read
      cases read with
      | none => exact Prog.unfailing_pure _
      | some read =>
          apply Prog.Unfailing.bind
          · exact Prog.Unfailing.bind (Prog.unfailing_status _)
              (fun _ => Prog.unfailing_pure _)
          · intro name
            split
            · exact Prog.unfailing_stuck
            · exact ih.bind (fun _ => Prog.unfailing_pure _)
            · exact ih

theorem unfailing_fileFind (index : ℕ) :
    (fileFind past depth index query).Unfailing := by
  apply Prog.Unfailing.bind (Prog.unfailing_status _)
  intro foffs
  cases foffs with
  | none => exact Prog.unfailing_pure _
  | some foffs => exact unfailing_fileFindFrom past depth query foffs

/-! ## The sections one after the other -/

/-- `file_find` over `count` sections from `index` on, the lists put
together. -/
def searchFrom : ℕ → ℕ → Prog File (List Found)
  | 0, _ => pure []
  | count + 1, index => do
      let found ← fileFind past depth index query
      let rest ← searchFrom count (index + 1)
      return found ++ rest

def searchAll : Prog File (List Found) := do
  let file ← Prog.get
  searchFrom past depth query file.extents.length 0

/-- The objects of `iter_ctor` and then `iter_next`, as long as
`iter_is_avail` holds and for less than `rounds` objects. -/
def iterCollect (rounds : ℕ) : Prog File (List Found) := do
  let iter ← iterCtor past depth query
  Network.collectFrom past depth rounds iter

/-- The list, when `rounds` rounds of a loop are enough for it. -/
def inRounds (rounds : ℕ) (all : List Found) : Prog File (List Found) :=
  if all.length < rounds then pure all else Prog.stuck

theorem unfailing_searchFrom (count index : ℕ) :
    (searchFrom past depth query count index).Unfailing := by
  induction count generalizing index with
  | zero => exact Prog.unfailing_pure _
  | succ count ih =>
      apply Prog.Unfailing.bind (unfailing_fileFind past depth query index)
      intro found
      exact (ih _).bind (fun _ => Prog.unfailing_pure _)

theorem inRounds_cons (rounds : ℕ) (found : Found) (all : List Found) :
    (do
      let rest ← inRounds rounds all
      pure (found :: rest)) = inRounds (rounds + 1) (found :: all) := by
  unfold inRounds
  rw [List.length_cons]
  by_cases hlt : all.length < rounds
  · rw [if_pos hlt, if_pos (by omega), pure_bind]
  · rw [if_neg hlt, if_neg (by omega)]
    rfl

/-- What the iterator still hands out is what it holds and what is behind its
section.  The induction is on the rounds, and where the held list runs out on
the sections that are left. -/
theorem collectFrom_eq (rounds : ℕ) : ∀ {held : List Found}
    {index count : ℕ} {file : File},
    file.extentsCount = index + 1 + count → (held ≠ [] ∨ count = 0) →
    Network.collectFrom past depth rounds ⟨query, some index, held⟩ file =
      (do
        let rest ← searchFrom past depth query count (index + 1)
        inRounds rounds (held ++ rest)) file := by
  induction rounds with
  | zero =>
      intro held index count file _ _
      have hstuck : (fun rest => inRounds 0 (held ++ rest)) =
          fun _ => Prog.stuck := by
        funext rest
        exact if_neg (Nat.not_lt_zero _)
      rw [hstuck,
        (unfailing_searchFrom past depth query count (index + 1)).bind_stuck]
      rfl
  | succ rounds ih =>
      have hnext : ∀ {count index : ℕ} {file : File},
          file.extentsCount = index + 1 + count →
          (do
            let iter ← iterNextFrom past depth query count index
            Network.collectFrom past depth rounds iter) file =
          (do
            let rest ← searchFrom past depth query count (index + 1)
            inRounds rounds rest) file := by
        intro count
        induction count with
        | zero =>
            intro index file hcount
            exact @ih [] index 0 file hcount (.inr rfl)
        | succ count ihCount =>
            intro index file hcount
            simp only [iterNextFrom, searchFrom, bind_assoc, pure_bind]
            apply (keeps_extentsCount past depth query (index + 1)).bind_congr
            intro found file' hkept
            by_cases hfound : found = []
            · subst hfound
              rw [if_neg (by simp)]
              exact ihCount (by omega)
            · rw [if_pos hfound, pure_bind]
              exact ih (by omega) (.inl hfound)
      intro held index count file hcount hheld
      cases held with
      | nil =>
          have hzero : count = 0 := by simpa using hheld
          subst hzero
          rfl
      | cons found rest =>
          have hpeel : Network.collectFrom past depth (rounds + 1)
              ⟨query, some index, found :: rest⟩ file =
              (do
                let iter ← iterNext past depth
                  ⟨query, some index, found :: rest⟩
                let rest ← Network.collectFrom past depth rounds iter
                pure (found :: rest)) file := rfl
          have hcons : ∀ tail : List Found,
              inRounds (rounds + 1) (found :: rest ++ tail) =
                (do
                  let all ← inRounds rounds (rest ++ tail)
                  pure (found :: all)) := fun tail =>
            (inRounds_cons rounds found (rest ++ tail)).symm
          rw [hpeel]
          simp only [hcons]
          rw [← bind_assoc, ← bind_assoc]
          apply Prog.bind_eq_of_eq
          cases rest with
          | nil =>
              have hleft : file.extents.length - (index + 1) = count := by
                unfold File.extentsCount at hcount
                omega
              have hiter : iterNext past depth ⟨query, some index, [found]⟩
                  file = iterNextFrom past depth query count index file := by
                rw [← hleft]
                rfl
              rw [Prog.bind_eq_of_eq hiter]
              exact hnext hcount
          | cons found' rest =>
              exact ih hcount (.inl (by simp))

theorem iterCollect_eq (rounds : ℕ) :
    iterCollect past depth query rounds = (do
      let all ← searchAll past depth query
      inRounds rounds all) := by
  have hctor : ∀ {count index : ℕ} {file : File},
      file.extentsCount = index + count →
      (do
        let iter ← iterCtorFrom past depth query count index
        Network.collectFrom past depth rounds iter) file =
      (do
        let all ← searchFrom past depth query count index
        inRounds rounds all) file := by
    intro count
    induction count with
    | zero =>
        intro index file _
        cases rounds <;> rfl
    | succ count ih =>
        intro index file hcount
        simp only [iterCtorFrom, searchFrom, bind_assoc, pure_bind]
        apply (keeps_extentsCount past depth query index).bind_congr
        intro found file' hkept
        by_cases hfound : found = []
        · subst hfound
          rw [if_neg (by simp)]
          exact ih (by omega)
        · rw [if_pos hfound, pure_bind]
          exact collectFrom_eq past depth query rounds (by omega)
            (.inl hfound)
  funext file
  exact hctor (by rw [Nat.zero_add]; rfl)

/-! ## The end -/

def iterNextTimes : ℕ → Iter → Prog File Iter
  | 0, iter => pure iter
  | count + 1, iter => do
      let iter ← iterNext past depth iter
      iterNextTimes count iter

/-- An iterator that holds nothing has no section left. -/
def Iter.Ended (iter : Iter) (file : File) : Prop :=
  iter.curCol = [] → ∀ index, iter.curSect = some index →
    file.extentsCount ≤ index + 1

theorem iterNext_of_ended {iter : Iter} {file : File}
    (hended : iter.Ended file) (hempty : iter.curCol = []) :
    iterNext past depth iter file = .ok iter file := by
  obtain ⟨query, curSect, curCol⟩ := iter
  dsimp only at hempty
  subst hempty
  cases curSect with
  | none => rfl
  | some index =>
      have hleft : file.extents.length - (index + 1) = 0 := by
        have hle := hended rfl index rfl
        unfold File.extentsCount at hle
        omega
      change iterNextFrom past depth query
        (file.extents.length - (index + 1)) index file = _
      rw [hleft]
      rfl

theorem iterCtorFrom_ended {count index : ℕ} {file file' : File}
    {iter : Iter}
    (hiter : iterCtorFrom past depth query count index file =
      .ok iter file') : iter.Ended file' := by
  induction count generalizing index file with
  | zero =>
      cases hiter
      intro _ index hindex
      cases hindex
  | succ count ih =>
      obtain ⟨found, file₁, -, hrest⟩ := Prog.bind_eq_ok hiter
      by_cases hfound : found = []
      · rw [if_neg (by simp [hfound])] at hrest
        exact ih hrest
      · rw [if_pos hfound] at hrest
        cases hrest
        intro hempty
        exact absurd hempty hfound

theorem iterNextFrom_ended {count index : ℕ} {file file' : File}
    {iter : Iter} (hcount : file.extentsCount ≤ index + 1 + count)
    (hiter : iterNextFrom past depth query count index file =
      .ok iter file') : iter.Ended file' := by
  induction count generalizing index file with
  | zero =>
      cases hiter
      intro _ index' hindex
      cases hindex
      exact hcount
  | succ count ih =>
      obtain ⟨found, file₁, hfind, hrest⟩ := Prog.bind_eq_ok hiter
      have hkept := (keeps_extentsCount past depth query (index + 1)).of_ok hfind
      by_cases hfound : found = []
      · rw [if_neg (by simp [hfound])] at hrest
        exact ih (by omega) hrest
      · rw [if_pos hfound] at hrest
        cases hrest
        intro hempty
        exact absurd hempty hfound

theorem iterNext_ended {iter iter' : Iter} {file file' : File}
    (hiter : iterNext past depth iter file = .ok iter' file') :
    iter'.Ended file' := by
  obtain ⟨query, curSect, curCol⟩ := iter
  cases htail : curCol.tail with
  | nil =>
      cases curSect with
      | none =>
          simp only [iterNext, htail, Prog.pure_apply,
            Outcome.ok.injEq] at hiter
          intro _ index hindex
          rw [← hiter.1] at hindex
          cases hindex
      | some index =>
          simp only [iterNext, htail] at hiter
          refine iterNextFrom_ended past depth query ?_ hiter
          unfold File.extentsCount
          omega
  | cons found rest =>
      simp only [iterNext, htail, Prog.pure_apply,
        Outcome.ok.injEq] at hiter
      intro hempty
      rw [← hiter.1] at hempty
      cases hempty

theorem iterNextTimes_ended {count : ℕ} {iter iter' : Iter}
    {file file' : File} (hended : iter.Ended file)
    (hiter : iterNextTimes past depth count iter file = .ok iter' file') :
    iter'.Ended file' := by
  induction count generalizing iter file with
  | zero =>
      cases hiter
      exact hended
  | succ count ih =>
      obtain ⟨next, file₁, hnext, hrest⟩ := Prog.bind_eq_ok hiter
      exact ih (iterNext_ended past depth hnext) hrest

theorem iterNextTimes_of_ended {iter : Iter} {file : File} (count : ℕ)
    (hended : iter.Ended file) (hempty : iter.curCol = []) :
    iterNextTimes past depth count iter file = .ok iter file := by
  induction count with
  | zero => rfl
  | succ count ih =>
      rw [iterNextTimes,
        Prog.bind_of_ok (iterNext_of_ended past depth hended hempty), ih]

end Past

/-! ## The law -/

/-- The iterator over a file, for one query. -/
structure IterLaw (past : Str → List Byte) (depth : ℕ) (query : Query)
    (file : File) : Prop where
  /-- Collecting is searching the sections one after the other. -/
  collect : ∀ rounds, iterCollect past depth query rounds file =
    (do
      let all ← searchAll past depth query
      inRounds rounds all) file
  /-- An iterator that is not available stays so. -/
  ended : ∀ {iter iter' : Iter} {file₁ file₂ : File} {count : ℕ},
    iterCtor past depth query file = .ok iter file₁ →
    iterNextTimes past depth count iter file₁ = .ok iter' file₂ →
    iter'.curCol = [] → ∀ more,
      iterNextTimes past depth more iter' file₂ = .ok iter' file₂

theorem iterLaw (past : Str → List Byte) (depth : ℕ) (query : Query)
    (file : File) : IterLaw past depth query file where
  collect := fun rounds =>
    congrFun (iterCollect_eq past depth query rounds) file
  ended := by
    intro iter iter' file₁ file₂ count hctor htimes hempty more
    have hended : iter.Ended file₁ :=
      iterCtorFrom_ended past depth query hctor
    exact iterNextTimes_of_ended past depth more
      (iterNextTimes_ended past depth hended htimes) hempty

end NosqlDbms
