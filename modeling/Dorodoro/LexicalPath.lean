/-
# Lexical paths

Unix paths as sequences of components, without a file system.

* `Path.ofString` splits a string at `/` and drops empty and `.` components;
* `Path.join` appends a relative path and is replaced by an absolute one;
* `Path.normalize` resolves `..` lexically, to a location: a root flag, the number of
  leading `..`, and the remaining names;
* `Loc.Inside D p` says that `p` is `D` or lies below it;
* `Path.Safe` is the local condition: relative, and no prefix climbs above the start.

`forall_inside_join_iff` shows that `Safe` is exactly what keeps `D.join q` inside every
directory `D`.
-/
import Mathlib.Data.List.Basic

namespace LexicalPath

/-! ## Paths -/

/-- A path component other than `.`. -/
inductive Comp where
  | parent
  | normal (name : List Char)
  deriving DecidableEq

/-- A path: whether it starts at the root, and its components. -/
structure Path where
  root : Bool
  comps : List Comp
  deriving DecidableEq

/-- One segment between slashes. -/
def Comp.ofSegment (seg : List Char) : Option Comp :=
  if seg = [] ∨ seg = ['.'] then none
  else if seg = ['.', '.'] then some .parent
  else some (.normal seg)

/-- The path a string denotes. -/
def Path.ofString (s : String) : Path where
  root := s.toList.head? == some '/'
  comps := (s.toList.splitOn '/').filterMap Comp.ofSegment

/-- `Path::join`: an absolute path replaces what was there. -/
def Path.join (p q : Path) : Path :=
  if q.root then q else ⟨p.root, p.comps ++ q.comps⟩

/-- The empty path. -/
def Path.empty : Path := ⟨false, []⟩

/-- `collect::<PathBuf>()`: push one string after the other. -/
def Path.collect (parts : List String) : Path :=
  parts.foldl (fun p s => p.join (.ofString s)) .empty

theorem Path.join_of_root {p q : Path} (h : q.root = true) : p.join q = q := by
  rw [join, if_pos h]

theorem Path.join_of_not_root {p q : Path} (h : q.root = false) :
    p.join q = ⟨p.root, p.comps ++ q.comps⟩ := by
  rw [join, if_neg (by simp [h])]

/-- Joining is associative. -/
theorem Path.join_assoc (p q r : Path) : (p.join q).join r = p.join (q.join r) := by
  cases hr : r.root with
  | true => rw [join_of_root hr, join_of_root hr, join_of_root hr]
  | false =>
      rw [join_of_not_root hr, join_of_not_root hr]
      cases hq : q.root with
      | true =>
          rw [join_of_root hq, join_of_root (by simp), hq]
      | false =>
          rw [join_of_not_root hq, join_of_not_root (by simp)]
          simp only [List.append_assoc]

/-! ## Locations -/

/-- A normalised path: the leading `..` that could not be resolved, and the names,
innermost first. -/
structure Loc where
  root : Bool
  ups : ℕ
  stack : List (List Char)
  deriving DecidableEq

/-- Follow one component. -/
def Loc.step (l : Loc) : Comp → Loc
  | .normal name => { l with stack := name :: l.stack }
  | .parent =>
      match l.stack with
      | _ :: stack => { l with stack := stack }
      | [] => if l.root then l else { l with ups := l.ups + 1 }

/-- Follow a list of components. -/
def Loc.walk (l : Loc) (cs : List Comp) : Loc := cs.foldl Loc.step l

@[simp] theorem Loc.walk_nil (l : Loc) : l.walk [] = l := rfl

@[simp] theorem Loc.walk_cons (l : Loc) (c : Comp) (cs : List Comp) :
    l.walk (c :: cs) = (l.step c).walk cs := rfl

theorem Loc.walk_append (l : Loc) (cs ds : List Comp) :
    l.walk (cs ++ ds) = (l.walk cs).walk ds := List.foldl_append

/-- The location a path denotes. -/
def Path.normalize (p : Path) : Loc := (⟨p.root, 0, []⟩ : Loc).walk p.comps

/-- `p` is the directory `d` or lies below it. -/
def Loc.Inside (d p : Loc) : Prop := p.root = d.root ∧ p.ups = d.ups ∧ d.stack <:+ p.stack

instance (d p : Loc) : Decidable (d.Inside p) := by
  unfold Loc.Inside
  infer_instance

/-! ## Safe paths -/

/-- Follow components from depth `d`; `none` when a `..` climbs above the start. -/
def climb : ℕ → List Comp → Option ℕ
  | d, [] => some d
  | d, .normal _ :: cs => climb (d + 1) cs
  | 0, .parent :: _ => none
  | d + 1, .parent :: cs => climb d cs

/-- A relative path no prefix of which climbs above its start. -/
def Path.Safe (q : Path) : Prop := q.root = false ∧ (climb 0 q.comps).isSome = true

instance (q : Path) : Decidable q.Safe := by
  unfold Path.Safe
  infer_instance

/-- A walk that does not climb above depth `pre.length` keeps what is below. -/
theorem Loc.walk_of_climb (cs : List Comp) :
    ∀ (l : Loc) (pre S : List (List Char)), l.stack = pre ++ S →
      (climb pre.length cs).isSome = true →
      (l.walk cs).root = l.root ∧ (l.walk cs).ups = l.ups ∧ S <:+ (l.walk cs).stack := by
  induction cs with
  | nil =>
      intro l pre S hst _
      exact ⟨rfl, rfl, pre, hst.symm⟩
  | cons c cs ih =>
      intro l pre S hst hcl
      cases c with
      | normal name => exact ih (l.step (.normal name)) (name :: pre) S (by simp [step, hst]) hcl
      | parent =>
          cases pre with
          | nil => simp [climb] at hcl
          | cons x pre =>
              have hstep : l.step .parent = { l with stack := pre ++ S } := by
                simp only [step, hst, List.cons_append]
              rw [walk_cons, hstep]
              exact ih { l with stack := pre ++ S } pre S rfl hcl

/-- **Safe paths stay inside.** -/
theorem inside_join_of_safe (D : Path) {q : Path} (h : q.Safe) :
    D.normalize.Inside (D.join q).normalize := by
  have hjoin : (D.join q).normalize = D.normalize.walk q.comps := by
    rw [Path.join_of_not_root h.1, Path.normalize, Loc.walk_append]
    rfl
  rw [hjoin]
  exact Loc.walk_of_climb q.comps D.normalize [] _ rfl h.2

/-- A name that is not on the stack and does not occur in the components does not
appear. -/
theorem Loc.not_mem_walk {name : List Char} (cs : List Comp) :
    ∀ l : Loc, name ∉ l.stack → Comp.normal name ∉ cs → name ∉ (l.walk cs).stack := by
  induction cs with
  | nil => intro l h _; exact h
  | cons c cs ih =>
      intro l h hcs
      rw [List.mem_cons, not_or] at hcs
      refine ih (l.step c) ?_ hcs.2
      cases c with
      | normal x =>
          have hx : name ≠ x := fun he => hcs.1 (he ▸ rfl)
          simp [step, h, hx]
      | parent =>
          simp only [step]
          split
          · next x stack hst => exact fun hm => h (hst ▸ List.mem_cons_of_mem x hm)
          · split <;> simpa using h

/-- A walk that climbs above the start has popped the outermost name. -/
theorem Loc.not_mem_walk_of_climb {name : List Char} (cs : List Comp) :
    ∀ (l : Loc) (pre : List (List Char)), l.stack = pre ++ [name] → name ∉ pre →
      Comp.normal name ∉ cs → climb pre.length cs = none → name ∉ (l.walk cs).stack := by
  induction cs with
  | nil => intro l pre _ _ _ hcl; simp [climb] at hcl
  | cons c cs ih =>
      intro l pre hst hpre hcs hcl
      rw [List.mem_cons, not_or] at hcs
      cases c with
      | normal x =>
          have hx : name ≠ x := fun he => hcs.1 (he ▸ rfl)
          exact ih (l.step (.normal x)) (x :: pre) (by simp [step, hst]) (by simp [hx, hpre])
            hcs.2 hcl
      | parent =>
          cases pre with
          | nil =>
              -- this `..` removes the outermost name
              have hstep : l.step .parent = { l with stack := [] } := by
                simp only [step, hst, List.nil_append]
              rw [walk_cons, hstep]
              exact not_mem_walk cs _ (by simp) hcs.2
          | cons x pre =>
              have hstep : l.step .parent = { l with stack := pre ++ [name] } := by
                simp only [step, hst, List.cons_append]
              rw [walk_cons, hstep]
              exact ih { l with stack := pre ++ [name] } pre rfl
                (fun hm => hpre (List.mem_cons_of_mem x hm)) hcs.2 hcl

/-- The names in a list of components have a longest one. -/
theorem exists_length_bound (cs : List Comp) :
    ∃ n, ∀ name, Comp.normal name ∈ cs → name.length ≤ n := by
  induction cs with
  | nil => exact ⟨0, by simp⟩
  | cons c cs ih =>
      obtain ⟨n, hn⟩ := ih
      cases c with
      | parent => exact ⟨n, by simpa using hn⟩
      | normal x =>
          refine ⟨max x.length n, fun name hm => ?_⟩
          rw [List.mem_cons, Comp.normal.injEq] at hm
          rcases hm with rfl | hm
          · exact Nat.le_max_left _ _
          · exact Nat.le_trans (hn name hm) (Nat.le_max_right _ _)

/-- The directory `/dd…d`. -/
def plainDir (n : ℕ) : Path := ⟨true, [.normal (List.replicate n 'd')]⟩

/-- **Unsafe paths escape.**  A path that is not safe leaves some directory with a
plain name. -/
theorem exists_not_inside_join {q : Path} (h : ¬ q.Safe) :
    ∃ n, ¬ (plainDir n).normalize.Inside ((plainDir n).join q).normalize := by
  obtain ⟨n, hn⟩ := exists_length_bound q.comps
  have hfresh : Comp.normal (List.replicate (n + 1) 'd') ∉ q.comps := by
    intro hm
    have hle := hn _ hm
    rw [List.length_replicate] at hle
    omega
  refine ⟨n + 1, fun hin => ?_⟩
  have hmem := hin.2.2.subset
    (show List.replicate (n + 1) 'd' ∈ (plainDir (n + 1)).normalize.stack by
      simp [plainDir, Path.normalize, Loc.step])
  cases hroot : q.root with
  | true =>
      rw [Path.join_of_root hroot] at hmem
      exact Loc.not_mem_walk q.comps _ (by simp) hfresh hmem
  | false =>
      have hclimb : climb 0 q.comps = none := by
        rw [Path.Safe, hroot] at h
        simpa using h
      rw [Path.join_of_not_root hroot, Path.normalize, plainDir, Loc.walk_append] at hmem
      exact Loc.not_mem_walk_of_climb q.comps _ [] rfl (by simp) hfresh hclimb hmem

/-- **Confinement is safety.**  A path stays inside every directory it is joined to
exactly when it is safe. -/
theorem forall_inside_join_iff {q : Path} :
    (∀ D : Path, D.normalize.Inside (D.join q).normalize) ↔ q.Safe := by
  constructor
  · intro hall
    by_contra h
    obtain ⟨n, hn⟩ := exists_not_inside_join h
    exact hn (hall _)
  · exact fun h D => inside_join_of_safe D h

end LexicalPath
