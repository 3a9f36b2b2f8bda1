import AlibC.Lib.Linked
import Mathlib.Data.List.Induction

/-! Lists whose objects are linked forward and backward, and how relinking a few of them
splices and cuts such lists. -/
namespace Linked

open Function

variable {A : Type} {nx nx' pv : A → Option (Option A)} {p q r : Option A} {a b : A}
  {xs ys pre post : List A}

/-- Each object of `xs` is linked to the next one, the last one to `q`. -/
def Path (nx : A → Option (Option A)) : List A → Option A → Prop
  | [], _ => True
  | a :: as, q => nx a = some (as.head?.or q) ∧ Path nx as q

theorem seg_iff_path : ∀ {p : Option A},
    Seg nx p xs q ↔ p = xs.head?.or q ∧ Path nx xs q := by
  induction xs with
  | nil => intro p; simp [Path]
  | cons a xs ih =>
    intro p
    simp only [seg_cons, ih, Path, List.head?_cons, Option.some_or]
    constructor
    · rintro ⟨hp, r, hr, rfl, hs⟩
      exact ⟨hp, hr, hs⟩
    · rintro ⟨hp, hr, hs⟩
      exact ⟨hp, _, hr, rfl, hs⟩

theorem path_append : Path nx (xs ++ ys) q ↔ Path nx xs (ys.head?.or q) ∧ Path nx ys q := by
  induction xs with
  | nil => simp [Path]
  | cons a xs ih =>
    simp only [List.cons_append, Path, ih, List.head?_append, Option.or_assoc, and_assoc]

theorem Path.congr (hc : ∀ a ∈ xs, nx' a = nx a) (h : Path nx xs q) : Path nx' xs q := by
  induction xs with
  | nil => trivial
  | cons a xs ih =>
    have ha := List.forall_mem_cons.mp hc
    exact ⟨ha.1.trans h.1, ih ha.2 h.2⟩

theorem Path.nodup (h : Path nx xs none) : xs.Nodup := by
  have hs : Seg nx (xs.head?.or none) xs none := seg_iff_path.mpr ⟨rfl, h⟩
  exact hs.nodup

theorem Path.exists_link (h : Path nx xs q) (ha : a ∈ xs) : ∃ r, nx a = some r := by
  have hs : Seg nx (xs.head?.or q) xs q := seg_iff_path.mpr ⟨rfl, h⟩
  exact hs.exists_link ha

/-- A list that can be followed in both directions. -/
structure Dll (nx pv : A → Option (Option A)) (xs : List A) : Prop where
  fwd : Path nx xs none
  bwd : Path pv xs.reverse none

theorem Dll.nodup (h : Dll nx pv xs) : xs.Nodup := h.fwd.nodup

/-- From an object of the list the rest lies ahead and the objects before it lie behind. -/
theorem Dll.split (h : Dll nx pv (pre ++ a :: post)) :
    Path nx (a :: post) none ∧ Path pv (a :: pre.reverse) none := by
  refine ⟨(path_append.mp h.fwd).2, ?_⟩
  have hb := h.bwd
  rw [List.reverse_append, List.reverse_cons, List.append_assoc] at hb
  exact (path_append.mp hb).2

theorem Dll.link_eq (h : Dll nx pv (pre ++ a :: post)) :
    nx a = some post.head? ∧ pv a = some pre.getLast? := by
  have hs := h.split
  refine ⟨?_, ?_⟩
  · rw [hs.1.1, Option.or_none]
  · rw [hs.2.1, Option.or_none, List.head?_reverse]

theorem Dll.not_mem (h : Dll nx pv (pre ++ a :: post)) : a ∉ pre ++ post :=
  (List.nodup_middle.mp h.nodup).notMem

/-- A part of a list shares no object with what lies around it. -/
theorem Dll.disjoint (h : Dll nx pv (pre ++ ys ++ post)) (ha : a ∈ pre ++ post) : a ∉ ys := by
  have hnd := h.nodup
  rw [List.append_assoc, List.nodup_append, List.nodup_append] at hnd
  obtain ⟨-, ⟨-, -, hpost⟩, hpre⟩ := hnd
  intro hay
  rcases List.mem_append.mp ha with ha | ha
  · exact hpre a ha a (List.mem_append_left _ hay) rfl
  · exact hpost a hay a ha rfl

/-- The neighbours of an object are others, and have links. -/
theorem Dll.neighbours (h : Dll nx pv (pre ++ a :: post)) :
    (∀ p, pre.getLast? = some p → p ≠ a ∧ ∃ r, nx p = some r) ∧
      ∀ s, post.head? = some s → s ≠ a ∧ ∃ r, nx s = some r := by
  refine ⟨fun p hp => ?_, fun s hs => ?_⟩
  · have hpm := List.mem_of_getLast? hp
    refine ⟨?_, h.fwd.exists_link (List.mem_append_left _ hpm)⟩
    rintro rfl
    exact h.not_mem (List.mem_append_left _ hpm)
  · have hsm := List.mem_of_head? hs
    refine ⟨?_, h.fwd.exists_link (List.mem_append_right _ (List.mem_cons_of_mem a hsm))⟩
    rintro rfl
    exact h.not_mem (List.mem_append_right _ hsm)

/-- The links that lead out of a part of a list. -/
theorem Dll.outer_links (h : Dll nx pv (pre ++ xs ++ post)) :
    (∀ a, xs.head? = some a → pv a = some pre.getLast?) ∧
      ∀ a, xs.getLast? = some a → nx a = some post.head? := by
  refine ⟨fun a ha => ?_, fun a ha => ?_⟩
  · obtain ⟨tail, rfl⟩ := List.head?_eq_some_iff.mp ha
    rw [List.append_assoc, List.cons_append] at h
    exact h.link_eq.2
  · obtain ⟨init, rfl⟩ := List.getLast?_eq_some_iff.mp ha
    rw [← List.append_assoc, List.append_assoc, List.singleton_append] at h
    exact h.link_eq.1

/-- Only one list is told by an object. -/
theorem Dll.unique_of_mem (h : Dll nx pv xs) (h' : Dll nx pv ys) (ha : a ∈ xs) (ha' : a ∈ ys) :
    xs = ys := by
  obtain ⟨pre, post, rfl⟩ := List.append_of_mem ha
  obtain ⟨pre', post', rfl⟩ := List.append_of_mem ha'
  have hs := h.split
  have hs' := h'.split
  have hahead : a :: post = a :: post' :=
    (seg_iff_path.mpr ⟨rfl, hs.1⟩ : Seg nx (some a) (a :: post) none).unique
      (seg_iff_path.mpr ⟨rfl, hs'.1⟩)
  have hback : a :: pre.reverse = a :: pre'.reverse :=
    (seg_iff_path.mpr ⟨rfl, hs.2⟩ : Seg pv (some a) (a :: pre.reverse) none).unique
      (seg_iff_path.mpr ⟨rfl, hs'.2⟩)
  have hpre : pre = pre' := List.reverse_injective (List.cons.inj hback).2
  rw [hpre, hahead]

theorem Dll.congr {pv' : A → Option (Option A)} (h : Dll nx pv xs)
    (hn : ∀ a ∈ xs, nx' a = nx a) (hp : ∀ a ∈ xs, pv' a = pv a) : Dll nx' pv' xs :=
  ⟨h.fwd.congr hn, h.bwd.congr fun a ha => hp a (List.mem_reverse.mp ha)⟩

section Walk

/-- An order in which the objects of a list are taken out: after each one comes the one before it,
or else the one behind it. -/
inductive Walk : List A → List A → Prop where
  | nil : Walk [] []
  | step {pre post order : List A} {a : A} : order.head? = pre.getLast?.or post.head? →
      Walk (pre ++ post) order → Walk (pre ++ a :: post) (a :: order)

theorem head?_walk (pre post : List A) :
    (pre.reverse ++ post).head? = pre.getLast?.or post.head? := by
  rw [List.head?_append, List.head?_reverse]

/-- From the last object of `pre` the walk goes to the front, and then forward through `post`. -/
theorem walk_between (pre post : List A) : Walk (pre ++ post) (pre.reverse ++ post) := by
  induction pre using List.reverseRecOn with
  | nil =>
    induction post with
    | nil => exact .nil
    | cons c post ih => exact @Walk.step A [] post post c rfl ih
  | append_singleton pre b ih =>
    rw [List.append_assoc, List.reverse_append]
    exact .step (head?_walk pre post) ih

theorem walk_from (pre : List A) (a : A) (post : List A) :
    Walk (pre ++ a :: post) (a :: (pre.reverse ++ post)) :=
  .step (head?_walk pre post) (walk_between pre post)

theorem Walk.perm {order : List A} (h : Walk xs order) : order.Perm xs := by
  induction h with
  | nil => exact .nil
  | step _ _ ih => exact (ih.cons _).trans List.perm_middle.symm

theorem Walk.not_mem {order : List A} (h : Walk (pre ++ post) order)
    (ha : a ∉ pre ++ post) : a ∉ order := fun hc => ha (h.perm.mem_iff.mp hc)

end Walk

variable [DecidableEq A]

/-- The links after that of `o`, if there is such an object, was set to `v`. -/
def redirect (nx : A → Option (Option A)) (o : Option A) (v : Option A) :
    A → Option (Option A) :=
  match o with
  | none => nx
  | some a => update nx a (some v)

@[simp] theorem redirect_none (v : Option A) : redirect nx none v = nx := rfl

@[simp] theorem redirect_some (v : Option A) : redirect nx (some a) v = update nx a (some v) := rfl

theorem redirect_of_ne {o : Option A} (v : Option A) (h : o ≠ some a) :
    redirect nx o v a = nx a := by
  cases o with
  | none => rfl
  | some b =>
    have hne : a ≠ b := fun he => h (by rw [he])
    exact update_of_ne hne _ _

/-- Two different objects may be relinked in either order. -/
theorem redirect_comm {o o' : Option A} (v v' : Option A) (h : o ≠ o' ∨ o = none) :
    redirect (redirect nx o v) o' v' = redirect (redirect nx o' v') o v := by
  cases o with
  | none => rfl
  | some a =>
    cases o' with
    | none => rfl
    | some b =>
      have hne : a ≠ b := by
        rcases h with h | h
        · exact fun he => h (by rw [he])
        · cases h
      exact update_comm hne _ _ _

theorem redirect_self {v : Option A} {o : Option A} (h : ∀ a, o = some a → nx a = some v) :
    redirect nx o v = nx := by
  cases o with
  | none => rfl
  | some a =>
    have ha := h a rfl
    rw [redirect_some, ← ha, update_eq_self]

theorem Path.redirect_of_not_mem {o : Option A} {v : Option A} (h : Path nx xs q)
    (ho : ∀ a ∈ xs, o ≠ some a) : Path (redirect nx o v) xs q :=
  h.congr fun a ha => redirect_of_ne v (ho a ha)

/-- A path is led elsewhere by its last object. -/
theorem Path.redirect_last (h : Path nx xs q) (hnd : xs.Nodup) (r : Option A) :
    Path (redirect nx xs.getLast? r) xs r := by
  induction xs with
  | nil => trivial
  | cons a xs ih =>
    have hnd := List.nodup_cons.mp hnd
    cases xs with
    | nil => exact ⟨update_self _ _ _, trivial⟩
    | cons b xs =>
      rw [List.getLast?_cons_cons]
      refine ⟨?_, ih h.2 hnd.2⟩
      rw [redirect_of_ne]
      · exact h.1
      · intro he
        exact hnd.1 (List.mem_of_getLast? he)

/-- A path is put between two parts of another one. -/
theorem Path.splice (h : Path nx (pre ++ post) none) (hy : Path nx ys none) (hne : ys ≠ [])
    (hnd : (pre ++ ys ++ post).Nodup) :
    Path (redirect (redirect nx pre.getLast? ys.head?) ys.getLast? post.head?)
      (pre ++ ys ++ post) none := by
  obtain ⟨hpre, hpost⟩ := path_append.mp h
  have hmid : ys.head?.or (post.head?.or none) = ys.head? := by
    cases ys with
    | nil => exact absurd rfl hne
    | cons y ys => rfl
  rw [List.append_assoc, List.nodup_append, List.nodup_append] at hnd
  obtain ⟨hndpre, ⟨hndy, hndpost, hyp⟩, hdis⟩ := hnd
  rw [List.append_assoc]
  refine path_append.mpr ⟨?_, path_append.mpr ⟨?_, ?_⟩⟩
  · rw [List.head?_append, Option.or_assoc, hmid]
    refine (hpre.redirect_last hndpre _).redirect_of_not_mem fun a ha he => ?_
    exact hdis a ha a (List.mem_append_left _ (List.mem_of_getLast? he)) rfl
  · rw [Option.or_none]
    refine Path.redirect_last (hy.redirect_of_not_mem fun a ha he => ?_) hndy _
    exact hdis a (List.mem_of_getLast? he) a (List.mem_append_left _ ha) rfl
  · refine (hpost.redirect_of_not_mem fun a ha he => ?_).redirect_of_not_mem fun a ha he => ?_
    · exact hdis a (List.mem_of_getLast? he) a (List.mem_append_right _ ha) rfl
    · exact hyp a (List.mem_of_getLast? he) a ha rfl

/-- A part of a path is cut out and its ends are joined. -/
theorem Path.cut (h : Path nx (pre ++ ys ++ post) none) :
    Path (redirect (redirect nx pre.getLast? post.head?) ys.getLast? none) (pre ++ post) none ∧
      Path (redirect (redirect nx pre.getLast? post.head?) ys.getLast? none) ys none := by
  have hnd := h.nodup
  rw [List.append_assoc, List.nodup_append, List.nodup_append] at hnd
  obtain ⟨hndpre, ⟨hndy, -, hyp⟩, hdis⟩ := hnd
  rw [List.append_assoc] at h
  obtain ⟨hpre, h⟩ := path_append.mp h
  obtain ⟨hy, hpost⟩ := path_append.mp h
  refine ⟨path_append.mpr ⟨?_, ?_⟩, ?_⟩
  · rw [Option.or_none]
    refine (hpre.redirect_last hndpre _).redirect_of_not_mem fun a ha he => ?_
    exact hdis a ha a (List.mem_append_left _ (List.mem_of_getLast? he)) rfl
  · refine (hpost.redirect_of_not_mem fun a ha he => ?_).redirect_of_not_mem fun a ha he => ?_
    · exact hdis a (List.mem_of_getLast? he) a (List.mem_append_right _ ha) rfl
    · exact hyp a (List.mem_of_getLast? he) a ha rfl
  · refine Path.redirect_last (hy.redirect_of_not_mem fun a ha he => ?_) hndy _
    exact hdis a (List.mem_of_getLast? he) a (List.mem_append_left _ ha) rfl

/-- A list is put between two parts of another one. -/
theorem Dll.splice (h : Dll nx pv (pre ++ post)) (hy : Dll nx pv ys) (hne : ys ≠ [])
    (hnd : (pre ++ ys ++ post).Nodup) :
    Dll (redirect (redirect nx pre.getLast? ys.head?) ys.getLast? post.head?)
      (redirect (redirect pv post.head? ys.getLast?) ys.head? pre.getLast?)
      (pre ++ ys ++ post) := by
  refine ⟨h.fwd.splice hy.fwd hne hnd, ?_⟩
  have hb := h.bwd
  rw [List.reverse_append] at hb
  have hrev : (pre ++ ys ++ post).reverse = post.reverse ++ ys.reverse ++ pre.reverse := by
    simp
  have hnd' : (post.reverse ++ ys.reverse ++ pre.reverse).Nodup := by
    rw [← hrev]
    exact List.nodup_reverse.mpr hnd
  have hs := hb.splice hy.bwd (by simpa using hne) hnd'
  rw [List.getLast?_reverse, List.getLast?_reverse, List.head?_reverse, List.head?_reverse] at hs
  rw [hrev]
  exact hs

/-- A part of a list is cut out. -/
theorem Dll.cut (h : Dll nx pv (pre ++ ys ++ post)) :
    Dll (redirect (redirect nx pre.getLast? post.head?) ys.getLast? none)
        (redirect (redirect pv post.head? pre.getLast?) ys.head? none) (pre ++ post) ∧
      Dll (redirect (redirect nx pre.getLast? post.head?) ys.getLast? none)
        (redirect (redirect pv post.head? pre.getLast?) ys.head? none) ys := by
  have hb := h.bwd
  have hrev : (pre ++ ys ++ post).reverse = post.reverse ++ ys.reverse ++ pre.reverse := by
    simp
  rw [hrev] at hb
  have hc := hb.cut
  rw [List.getLast?_reverse, List.getLast?_reverse, List.head?_reverse] at hc
  have hf := h.fwd.cut
  refine ⟨⟨hf.1, ?_⟩, ⟨hf.2, hc.2⟩⟩
  rw [List.reverse_append]
  exact hc.1

/-- The later of two assignments to an object counts. -/
theorem redirect_absorb {o o' : Option A} (v v' v'' : Option A) :
    redirect (redirect (redirect nx o v) o' v') o v'' = redirect (redirect nx o' v') o v'' := by
  cases o with
  | none => rfl
  | some a =>
    funext c
    by_cases hc : c = a
    · subst hc
      simp only [redirect_some, update_self]
    · have hne : some a ≠ some c := fun he => hc (Option.some.inj he).symm
      rw [redirect_of_ne _ hne, redirect_of_ne _ hne]
      cases o' with
      | none => exact redirect_of_ne _ hne
      | some b =>
        by_cases hb : c = b
        · subst hb
          simp only [redirect_some, update_self]
        · have hne' : some b ≠ some c := fun he => hb (Option.some.inj he).symm
          rw [redirect_of_ne _ hne', redirect_of_ne _ hne', redirect_of_ne _ hne]

/-- A part of a list is cut out and put in at another place of the rest. -/
theorem Dll.move {pre' post' : List A} (h : Dll nx pv (pre ++ ys ++ post)) (hne : ys ≠ [])
    (hrest : pre ++ post = pre' ++ post') :
    Dll (redirect (redirect (redirect nx pre.getLast? post.head?) pre'.getLast? ys.head?)
        ys.getLast? post'.head?)
      (redirect (redirect (redirect pv post.head? pre.getLast?) post'.head? ys.getLast?)
        ys.head? pre'.getLast?) (pre' ++ ys ++ post') := by
  have hnd : (pre' ++ ys ++ post').Nodup := by
    have hperm : (pre ++ ys ++ post).Perm (pre' ++ ys ++ post') := by
      rw [List.append_assoc, List.append_assoc]
      refine (List.perm_append_comm_assoc pre ys post).trans ?_
      rw [hrest]
      exact List.perm_append_comm_assoc ys pre' post'
    exact hperm.nodup_iff.mp h.nodup
  have hc := h.cut
  rw [hrest] at hc
  have hs := hc.1.splice hc.2 hne hnd
  rw [redirect_absorb, redirect_absorb] at hs
  exact hs

end Linked
