import VirtualContext.Library.Program

/-!
# Runs in which nothing raises

`smooth` runs a program with nobody else around and gives up at the first
statement that raises.  `Yields` is what such a run computes, in terms of the
tables a statement sees: it does not mention whether they are the durable tables
or the working copy of a transaction.
-/

namespace VirtualContext.Library

variable {ℓ σ ε α β : Type}

namespace Program

def smooth : Program ℓ σ ε α → Conn σ → Option (α × Conn σ)
  | .done value, c => some (value, c)
  | .fail _, _ => none
  | .draw next, c => (next (c.supply + 1)).smooth { c with supply := c.supply + 1 }
  | .issue _ statement next, c =>
      match statement.exec c with
      | (.ok value, c) => (next (.ok value)).smooth c
      | (.error _, _) => none

theorem smooth_bind (p : Program ℓ σ ε α) (f : α → Program ℓ σ ε β)
    (c : Conn σ) :
    (p >>= f).smooth c =
      (p.smooth c).bind fun outcome => (f outcome.1).smooth outcome.2 := by
  change (p.bind f).smooth c = _
  induction p generalizing c with
  | done value => rfl
  | fail raised => rfl
  | draw next ih => exact ih _ _
  | issue site statement next ih =>
      simp only [bind, smooth]
      rcases statement.exec c with ⟨outcome, c'⟩
      cases outcome with
      | ok value => exact ih _ _
      | error exc => rfl

theorem smooth_located (site : ℓ) (p : Program ℓ σ ε α) (c : Conn σ) :
    (p.located site).smooth c = p.smooth c := by
  induction p generalizing c with
  | done value => rfl
  | fail raised => rfl
  | draw next ih => exact ih _ _
  | issue site' statement next ih =>
      simp only [located, smooth]
      rcases statement.exec c with ⟨outcome, c'⟩
      cases outcome with
      | ok value => exact ih _ _
      | error exc => rfl

/-- A handler is not reached. -/
theorem smooth_tryCatch {p : Program ℓ σ ε α} {c : Conn σ}
    {outcome : α × Conn σ} (h : p.smooth c = some outcome)
    (handler : Raised ℓ ε → Program ℓ σ ε α) :
    (p.tryCatch handler).smooth c = some outcome := by
  induction p generalizing c with
  | done value => exact h
  | fail raised => cases h
  | draw next ih => exact ih _ h
  | issue site statement next ih =>
      simp only [tryCatch, smooth] at h ⊢
      rcases hexec : statement.exec c with ⟨result, c'⟩
      rw [hexec] at h
      cases result with
      | ok value => exact ih _ h
      | error exc => cases h

theorem run_of_smooth {p : Program ℓ σ ε α} {c c' : Conn σ} {value : α}
    (h : p.smooth c = some (value, c')) :
    p.run .quiet c = (.ok value, c') := by
  induction p generalizing c with
  | done value =>
      cases h
      rfl
  | fail raised => cases h
  | draw next ih => exact ih _ h
  | issue site statement next ih =>
      simp only [smooth] at h
      simp only [run, Env.interfere_quiet, Env.faultAt_quiet]
      rcases hexec : statement.exec c with ⟨result, c''⟩
      rw [hexec] at h
      cases result with
      | ok value => exact ih _ h
      | error exc => cases h

end Program

/--
From tables `t` and supply `n` the program returns `value`, leaving `t'` and
`n'`; it leaves no transaction open unless there was one.
-/
def Yields (p : Program ℓ σ ε α) (t : σ) (n : Nat) (value : α) (t' : σ)
    (n' : Nat) : Prop :=
  ∀ c : Conn σ, c.view = t → c.supply = n →
    ∃ c', p.smooth c = some (value, c') ∧ c'.view = t' ∧ c'.supply = n' ∧
      (c.txn = none → c'.txn = none)

namespace Yields

variable {p : Program ℓ σ ε α} {f : α → Program ℓ σ ε β} {t t' t'' : σ}
  {n n' n'' : Nat} {value : α} {result : β} {site : ℓ}

theorem pure : Yields (Pure.pure value : Program ℓ σ ε α) t n value t n :=
  fun c ht hn => ⟨c, rfl, ht, hn, id⟩

theorem bind (hp : Yields p t n value t' n')
    (hf : Yields (f value) t' n' result t'' n'') :
    Yields (p >>= f) t n result t'' n'' := by
  intro c ht hn
  obtain ⟨c', hsmooth, ht', hn', htxn⟩ := hp c ht hn
  obtain ⟨c'', hsmooth', ht'', hn'', htxn'⟩ := hf c' ht' hn'
  refine ⟨c'', ?_, ht'', hn'', htxn' ∘ htxn⟩
  rw [Program.smooth_bind, hsmooth]
  exact hsmooth'

theorem located (hp : Yields p t n value t' n') (site : ℓ) :
    Yields (p.located site) t n value t' n' := by
  intro c ht hn
  rw [Program.smooth_located]
  exact hp c ht hn

theorem tryCatch (hp : Yields p t n value t' n')
    (handler : Raised ℓ ε → Program ℓ σ ε α) :
    Yields (p.tryCatch handler) t n value t' n' := by
  intro c ht hn
  obtain ⟨c', hsmooth, hrest⟩ := hp c ht hn
  exact ⟨c', Program.smooth_tryCatch hsmooth handler, hrest⟩

theorem read (query : σ → α) :
    Yields (Program.read site query : Program ℓ σ ε α) t n (query t) t n :=
  fun c ht hn => ⟨c, by rw [← ht]; rfl, ht, hn, id⟩

theorem read_of {query : σ → α} (h : query t = value) :
    Yields (Program.read site query : Program ℓ σ ε α) t n value t n := by
  rw [← h]
  exact read query

theorem write {change : σ → Except ε (α × σ)} (h : change t = .ok (value, t')) :
    Yields (Program.write site change) t n value t' n := by
  intro c ht hn
  refine ⟨c.store t', ?_, Conn.view_store c t', by simp [hn], ?_⟩
  · simp [Program.write, Program.exec, Program.smooth, Statement.exec, ht, h,
      Program.ofOutcome]
  · intro htxn
    simp [Conn.store, htxn]

theorem update (f : σ → σ) :
    Yields (Program.update site f : Program ℓ σ ε Unit) t n () (f t) n :=
  write rfl

theorem commit :
    Yields (Program.commit site : Program ℓ σ ε Unit) t n () t n :=
  fun c ht hn => ⟨c.commit, rfl, ht, hn, fun _ => rfl⟩

theorem fresh :
    Yields (Program.fresh : Program ℓ σ ε Nat) t n (n + 1) t (n + 1) := by
  intro c ht hn
  exact ⟨{ c with supply := c.supply + 1 }, by rw [← hn]; rfl, ht,
    by rw [← hn], id⟩

theorem ofExcept {outcome : Except ε α} (h : outcome = .ok value) :
    Yields (Program.ofExcept site outcome : Program ℓ σ ε α) t n value t n := by
  rw [h]
  exact pure

/-- A transaction that begins in autocommit mode and ends by a commit. -/
theorem transaction {nested : ε} {site' : ℓ} (hp : Yields p t n value t' n') :
    ∀ c : Conn σ, c = .idle t n →
      (Program.beginImmediate site nested >>= fun _ =>
        p >>= fun value => Program.commit site' >>= fun _ =>
          Pure.pure value).smooth c = some (value, .idle t' n') := by
  rintro c rfl
  obtain ⟨c', hsmooth, ht', hn', -⟩ := hp ⟨t, some t, n⟩ rfl rfl
  rw [Program.smooth_bind]
  simp only [Program.beginImmediate, Program.exec, Program.smooth,
    Statement.exec, Program.ofOutcome, Conn.idle, Option.bind_some]
  rw [Program.smooth_bind, hsmooth]
  subst ht' hn'
  rfl

/-- What an idle connection observes. -/
theorem run (hp : Yields p t n value t' n') :
    p.run .quiet (.idle t n) = (.ok value, .idle t' n') := by
  obtain ⟨⟨durable, txn, supply⟩, hsmooth, ht', hn', htxn⟩ :=
    hp (.idle t n) rfl rfl
  obtain rfl : txn = none := htxn rfl
  subst ht' hn'
  exact Program.run_of_smooth hsmooth

end Yields

end VirtualContext.Library
