import LogReplicator.Library.Txn

/-!
# Sections as labelled paths

A section does several small changes one after the other.  Given a relation
`R l s s'` that says what a change labelled `l` does, `Path R ls s s'` is a
sequence of changes, and `Spec` says that every run of a section is such a path:
a run that returns has gone along a path to its last state, and a run that dies
has gone along a path to a state with the same durable part as the one it left.

Once the sections of a program are specified this way, a property of its runs is
proved change by change.
-/

namespace LogReplicator
namespace Library

variable {L σ δ α β : Type}

/-- Changes one after the other. -/
inductive Path (R : L → σ → σ → Prop) : List L → σ → σ → Prop
  | nil
      (s : σ) :
      Path R [] s s
  | cons
      {l : L} {ls : List L} {s s' s'' : σ}
      (hstep : R l s s')
      (hrest : Path R ls s' s'') :
      Path R (l :: ls) s s''

namespace Path

variable {R : L → σ → σ → Prop} {s s' s'' : σ} {ls ls' : List L}

theorem single
    {l : L} (h : R l s s') :
    Path R [l] s s' :=
  cons h (nil s')

theorem append
    (h : Path R ls s s')
    (h' : Path R ls' s' s'') :
    Path R (ls ++ ls') s s'' := by
  induction h with
  | nil s =>
      exact h'
  | cons hstep _ ih =>
      exact cons hstep (ih h')

theorem eq_of_nil
    (h : Path R [] s s') :
    s' = s := by
  cases h
  rfl

theorem of_single
    {l : L} (h : Path R [l] s s') :
    R l s s' := by
  cases h with
  | cons hstep hrest =>
      cases hrest
      exact hstep

/-- What every change along a path preserves holds at its end. -/
theorem invariant
    {P : σ → Prop}
    (h : Path R ls s s')
    (hP : P s)
    (hstep : ∀ l ∈ ls, ∀ s s', R l s s' → P s → P s') :
    P s' := by
  induction h with
  | nil s =>
      exact hP
  | cons hl _ ih =>
      refine ih (hstep _ List.mem_cons_self _ _ hl hP) ?_
      intro l hmem
      exact hstep l (List.mem_cons_of_mem _ hmem)

/-- What an invariant says about single changes holds along the path. -/
theorem refine
    {P : σ → Prop} {R' : L → σ → σ → Prop}
    (h : Path R ls s s')
    (hP : P s)
    (hstep : ∀ l ∈ ls, ∀ s s', R l s s' → P s → P s' ∧ R' l s s') :
    Path R' ls s s' := by
  induction h with
  | nil s =>
      exact nil s
  | cons hl _ ih =>
      obtain ⟨hP', hl'⟩ := hstep _ List.mem_cons_self _ _ hl hP
      exact cons hl' (ih hP' fun l hmem => hstep l (List.mem_cons_of_mem _ hmem))

/-- An invariant that also speaks about the changes made so far. -/
theorem accumulate
    {I : List L → σ → Prop}
    (h : Path R ls s s')
    (hI : I [] s)
    (hstep : ∀ pre l s s', pre ++ [l] <+: ls → R l s s' → I pre s → I (pre ++ [l]) s') :
    I ls s' := by
  have hall : ∀ {rest s s'}, Path R rest s s' → ∀ pre, pre ++ rest = ls → I pre s →
      I ls s' := by
    intro rest s s' hrest
    induction hrest with
    | nil s =>
        intro pre hpre hs
        rw [List.append_nil] at hpre
        rwa [hpre] at hs
    | @cons l rest s s' s'' hl _ ih =>
        intro pre hpre hs
        refine ih (pre ++ [l]) (by simpa using hpre) (hstep pre l s s' ?_ hl hs)
        exact ⟨rest, by simpa using hpre⟩
  exact hall h [] rfl hI

end Path

/-- Rounds that reach the goal or come closer to it reach it. -/
theorem exists_iterate
    {f : σ → σ} {P goal : σ → Prop} (rank : σ → ℕ)
    (hround : ∀ s, P s → goal s ∨ (P (f s) ∧ rank (f s) < rank s))
    {s : σ} (hs : P s) :
    ∃ k, goal (f^[k] s) := by
  induction hrank : rank s using Nat.strong_induction_on generalizing s with
  | _ r ih =>
      rcases hround s hs with hgoal | ⟨hnext, hlt⟩
      · exact ⟨0, hgoal⟩
      · obtain ⟨k, hk⟩ := ih _ (hrank ▸ hlt) hnext rfl
        exact ⟨k + 1, hk⟩

namespace Txn

section Spec

variable (faulty : Prop)
variable (R : L → σ → σ → Prop)
variable (durable : σ → δ)

/-- Every run of the section goes along a path; `Q` relates its result, the
labels and the last state, and `D` says which labels it may have died after. -/
def Spec (m : Txn σ α) (Q : α → List L → σ → Prop) (D : List L → Prop) (s : σ) :
    Prop :=
  wp faulty m (fun a s' => ∃ ls, Path R ls s s' ∧ Q a ls s')
    (fun s' => ∃ ls s'', Path R ls s s'' ∧ durable s'' = durable s' ∧ D ls) s

end Spec

namespace Spec

variable {faulty : Prop} {R : L → σ → σ → Prop} {durable : σ → δ}
variable {Q : α → List L → σ → Prop} {D : List L → Prop} {s : σ}

theorem pure
    {a : α} (h : Q a [] s) :
    Spec faulty R durable (pure a) Q D s :=
  wp_pure ⟨[], Path.nil s, h⟩

theorem bind
    {m : Txn σ α} {f : α → Txn σ β}
    {Q' : β → List L → σ → Prop}
    (hm : Spec faulty R durable m Q D s)
    (hf : ∀ a ls s', Path R ls s s' → Q a ls s' →
      Spec faulty R durable (f a) (fun b ls' => Q' b (ls ++ ls'))
        (fun ls' => D (ls ++ ls')) s') :
    Spec faulty R durable (m >>= f) Q' D s := by
  refine wp_bind (wp_mono hm ?_ (fun _ h => h))
  rintro a s' ⟨ls, hpath, hQ⟩
  refine wp_mono (hf a ls s' hpath hQ) ?_ ?_
  · rintro b s'' ⟨ls', hpath', hQ'⟩
    exact ⟨ls ++ ls', hpath.append hpath', hQ'⟩
  · rintro s'' ⟨ls', t, hpath', hdur, hD⟩
    exact ⟨ls ++ ls', t, hpath.append hpath', hdur, hD⟩

/-- Read the state and go on. -/
theorem read
    {f : σ → Txn σ α}
    (h : Spec faulty R durable (f s) Q D s) :
    Spec faulty R durable (Txn.read >>= f) Q D s :=
  wp_bind (wp_read h)

/-- An update of the state that is one change. -/
theorem update
    {f : σ → σ} {l : L} {Q : Unit → List L → σ → Prop}
    (hstep : R l s (f s))
    (h : Q () [l] (f s)) :
    Spec faulty R durable (Txn.update f) Q D s :=
  wp_update ⟨[l], Path.single hstep, h⟩

/-- A transaction that is one change. -/
theorem write
    {f : σ → σ} {l : L} {Q : Bool → List L → σ → Prop}
    (hstep : R l s (f s))
    (hcommit : Q true [l] (f s))
    (hfail : faulty → Q false [] s)
    (hcrash : D []) :
    Spec faulty R durable (Txn.write f) Q D s :=
  wp_write ⟨[l], Path.single hstep, hcommit⟩
    (fun hf => ⟨[], Path.nil s, hfail hf⟩)
    ⟨[], s, Path.nil s, rfl, hcrash⟩

/-- One change, then the rest. -/
theorem cons
    {m : Txn σ α} {s' : σ} {l : L}
    (hstep : R l s s')
    (hrest : Spec faulty R durable m (fun a ls => Q a (l :: ls))
      (fun ls => D (l :: ls)) s') :
    wp faulty m (fun a t => ∃ ls, Path R ls s t ∧ Q a ls t)
      (fun t => ∃ ls t', Path R ls s t' ∧ durable t' = durable t ∧ D ls) s' := by
  refine wp_mono hrest ?_ ?_
  · rintro a t ⟨ls, hpath, hQ⟩
    exact ⟨l :: ls, Path.cons hstep hpath, hQ⟩
  · rintro t ⟨ls, t', hpath, hdur, hD⟩
    exact ⟨l :: ls, t', Path.cons hstep hpath, hdur, hD⟩

/-- An update of the state that is one change, and what follows. -/
theorem update_bind
    {f : σ → σ} {l : L} {m : Unit → Txn σ α}
    (hstep : R l s (f s))
    (hrest : Spec faulty R durable (m ()) (fun a ls => Q a (l :: ls))
      (fun ls => D (l :: ls)) (f s)) :
    Spec faulty R durable (Txn.update f >>= m) Q D s :=
  wp_bind (wp_update (cons hstep hrest))

/-- A transaction that is one change, and what follows. -/
theorem write_bind
    {f : σ → σ} {l : L} {m : Bool → Txn σ α}
    (hstep : R l s (f s))
    (hcommit : Spec faulty R durable (m true) (fun a ls => Q a (l :: ls))
      (fun ls => D (l :: ls)) (f s))
    (hfail : faulty → Spec faulty R durable (m false) Q D s)
    (hcrash : D []) :
    Spec faulty R durable (Txn.write f >>= m) Q D s :=
  wp_bind (wp_write (cons hstep hcommit) hfail
    ⟨[], s, Path.nil s, rfl, hcrash⟩)

/-- A transaction that has to be accepted, is one change if it is, and what follows. -/
theorem writeIf_bind
    {accepted : Bool} {f : σ → σ} {l : L} {m : Bool → Txn σ α}
    (hstep : accepted = true → R l s (f s))
    (hcommit : accepted = true → Spec faulty R durable (m true) (fun a ls => Q a (l :: ls))
      (fun ls => D (l :: ls)) (f s))
    (hfail : accepted = false ∨ faulty → Spec faulty R durable (m false) Q D s)
    (hcrash : D []) :
    Spec faulty R durable (Txn.writeIf accepted f >>= m) Q D s :=
  wp_bind (wp_writeIf (fun h => cons (hstep h) (hcommit h)) hfail
    ⟨[], s, Path.nil s, rfl, hcrash⟩)

/-- A transaction that has to be accepted and the update after it are one change. -/
theorem writeIf_update
    {accepted : Bool} {f g : σ → σ} {l : L} {m m' : Txn σ α}
    (hstep : accepted = true → R l s (g (f s)))
    (hcommit : accepted = true → Spec faulty R durable m (fun a ls => Q a (l :: ls))
      (fun ls => D (l :: ls)) (g (f s)))
    (hfail : accepted = false ∨ faulty → Spec faulty R durable m' Q D s)
    (hcrash : D []) :
    Spec faulty R durable
      (Txn.writeIf accepted f >>= fun saved =>
        if saved then Txn.update g >>= fun _ => m else m') Q D s := by
  refine wp_bind (wp_writeIf (fun h => ?_) (fun h => ?_) ?_)
  · exact wp_bind (wp_update (cons (hstep h) (hcommit h)))
  · exact hfail h
  · exact ⟨[], s, Path.nil s, rfl, hcrash⟩

/-- A transaction and the update after it are one change. -/
theorem write_update
    {f g : σ → σ} {l : L} {m m' : Txn σ α}
    (hstep : R l s (g (f s)))
    (hcommit : Spec faulty R durable m (fun a ls => Q a (l :: ls))
      (fun ls => D (l :: ls)) (g (f s)))
    (hfail : faulty → Spec faulty R durable m' Q D s)
    (hcrash : D []) :
    Spec faulty R durable
      (Txn.write f >>= fun saved =>
        if saved then Txn.update g >>= fun _ => m else m') Q D s := by
  refine wp_bind (wp_write ?_ ?_ ?_)
  · exact wp_bind (wp_update (cons hstep hcommit))
  · intro hf
    exact hfail hf
  · exact ⟨[], s, Path.nil s, rfl, hcrash⟩

/-- An update and the transaction after it are one change, which is another one
when the transaction fails. -/
theorem update_write
    {f g : σ → σ} {l l' : L} {m : Bool → Txn σ α}
    (hdur : durable (g s) = durable s)
    (hstep : R l s (f (g s)))
    (hcommit : Spec faulty R durable (m true) (fun a ls => Q a (l :: ls))
      (fun ls => D (l :: ls)) (f (g s)))
    (hstep' : faulty → R l' s (g s))
    (hfail : faulty → Spec faulty R durable (m false) (fun a ls => Q a (l' :: ls))
      (fun ls => D (l' :: ls)) (g s))
    (hcrash : D []) :
    Spec faulty R durable
      (Txn.update g >>= fun _ => Txn.write f >>= m) Q D s := by
  refine wp_bind (wp_update (wp_bind (wp_write ?_ ?_ ?_)))
  · exact cons hstep hcommit
  · intro hf
    exact cons (hstep' hf) (hfail hf)
  · exact ⟨[], s, Path.nil s, hdur.symm, hcrash⟩

theorem mono
    {m : Txn σ α} {Q' : α → List L → σ → Prop} {D' : List L → Prop}
    (h : Spec faulty R durable m Q D s)
    (hQ : ∀ a ls s', Path R ls s s' → Q a ls s' → Q' a ls s')
    (hD : ∀ ls, D ls → D' ls) :
    Spec faulty R durable m Q' D' s := by
  refine wp_mono h ?_ ?_
  · rintro a s' ⟨ls, hpath, hQa⟩
    exact ⟨ls, hpath, hQ a ls s' hpath hQa⟩
  · rintro s' ⟨ls, s'', hpath, hdur, hDls⟩
    exact ⟨ls, s'', hpath, hdur, hD ls hDls⟩

end Spec

end Txn

end Library
end LogReplicator
