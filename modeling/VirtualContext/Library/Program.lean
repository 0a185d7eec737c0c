import Mathlib.Data.List.Basic

/-!
# Programs over a transactional database

A program issues statements one at a time through one connection.  A statement
outside a transaction is durable at once; inside a transaction it changes the
transaction's working copy, which a commit makes durable and a rollback
discards.  Statements are issued from named sites, so that an environment can
make the statement of a chosen site raise, or let another connection commit
just before it.
-/

namespace VirtualContext.Library

/-- One statement over tables `σ`, raising exceptions `ε`. -/
inductive Statement (σ ε : Type) : Type → Type 1 where
  | read {β : Type} (query : σ → β) : Statement σ ε β
  | write {β : Type} (update : σ → Except ε (β × σ)) : Statement σ ε β
  | beginImmediate (nested : ε) : Statement σ ε Unit
  | commit : Statement σ ε Unit
  | rollback : Statement σ ε Unit

/-- An exception together with the site it was raised from. -/
structure Raised (ℓ ε : Type) where
  site : ℓ
  exc : ε
  deriving DecidableEq, Repr

/--
A program: return, raise, draw the next unused identifier, or issue a
statement and continue with its outcome.
-/
inductive Program (ℓ σ ε : Type) (α : Type) : Type 1 where
  | done (value : α)
  | fail (raised : Raised ℓ ε)
  | draw (next : Nat → Program ℓ σ ε α)
  | issue (site : ℓ) {β : Type} (statement : Statement σ ε β)
      (next : Except (Raised ℓ ε) β → Program ℓ σ ε α)

namespace Program

variable {ℓ σ ε α β : Type}

def bind : Program ℓ σ ε α → (α → Program ℓ σ ε β) → Program ℓ σ ε β
  | .done value, f => f value
  | .fail raised, _ => .fail raised
  | .draw next, f => .draw fun id => (next id).bind f
  | .issue site statement next, f =>
      .issue site statement fun outcome => (next outcome).bind f

instance : Monad (Program ℓ σ ε) where
  pure := .done
  bind := bind

/-- `try` / `except`: every exception of the body reaches the handler. -/
def tryCatch : Program ℓ σ ε α → (Raised ℓ ε → Program ℓ σ ε α) →
    Program ℓ σ ε α
  | .done value, _ => .done value
  | .fail raised, handler => handler raised
  | .draw next, handler => .draw fun id => (next id).tryCatch handler
  | .issue site statement next, handler =>
      .issue site statement fun outcome => (next outcome).tryCatch handler

/-- The same program with all its statements and exceptions at one site. -/
def located (site : ℓ) : Program ℓ σ ε α → Program ℓ σ ε α
  | .done value => .done value
  | .fail raised => .fail ⟨site, raised.exc⟩
  | .draw next => .draw fun id => (next id).located site
  | .issue _ statement next =>
      .issue site statement fun outcome => (next outcome).located site

def raise (site : ℓ) (exc : ε) : Program ℓ σ ε α := .fail ⟨site, exc⟩

def ofExcept (site : ℓ) : Except ε α → Program ℓ σ ε α
  | .ok value => .done value
  | .error exc => raise site exc

def ofOutcome : Except (Raised ℓ ε) α → Program ℓ σ ε α
  | .ok value => .done value
  | .error raised => .fail raised

/-- Issue one statement; its exception propagates. -/
def exec (site : ℓ) (statement : Statement σ ε β) : Program ℓ σ ε β :=
  .issue site statement ofOutcome

def read (site : ℓ) (query : σ → β) : Program ℓ σ ε β :=
  exec site (.read query)

def write (site : ℓ) (update : σ → Except ε (β × σ)) : Program ℓ σ ε β :=
  exec site (.write update)

/-- A write that cannot violate a constraint. -/
def update (site : ℓ) (f : σ → σ) : Program ℓ σ ε Unit :=
  write site fun tables => .ok ((), f tables)

def commit (site : ℓ) : Program ℓ σ ε Unit := exec site .commit

def rollback (site : ℓ) : Program ℓ σ ε Unit := exec site .rollback

def beginImmediate (site : ℓ) (nested : ε) : Program ℓ σ ε Unit :=
  exec site (.beginImmediate nested)

def fresh : Program ℓ σ ε Nat := .draw .done

end Program

/-! ## One connection -/

/--
A connection: the durable tables, the working copy of an open transaction and
the identifiers drawn so far.  A rollback never gives identifiers back.
-/
structure Conn (σ : Type) where
  durable : σ
  txn : Option σ
  supply : Nat

namespace Conn

variable {σ : Type}

/-- What a statement of this connection sees. -/
def view (c : Conn σ) : σ := c.txn.getD c.durable

def store (c : Conn σ) (tables : σ) : Conn σ :=
  match c.txn with
  | none => { c with durable := tables }
  | some _ => { c with txn := some tables }

def commit (c : Conn σ) : Conn σ := { c with durable := c.view, txn := none }

def rollback (c : Conn σ) : Conn σ := { c with txn := none }

/-- A connection in autocommit mode. -/
def idle (tables : σ) (supply : Nat) : Conn σ := ⟨tables, none, supply⟩

@[simp] theorem view_idle (tables : σ) (supply : Nat) :
    (idle tables supply).view = tables := rfl

@[simp] theorem durable_idle (tables : σ) (supply : Nat) :
    (idle tables supply).durable = tables := rfl

@[simp] theorem txn_idle (tables : σ) (supply : Nat) :
    (idle tables supply).txn = none := rfl

@[simp] theorem supply_idle (tables : σ) (supply : Nat) :
    (idle tables supply).supply = supply := rfl

@[simp] theorem store_idle (tables tables' : σ) (supply : Nat) :
    (idle tables supply).store tables' = idle tables' supply := rfl

@[simp] theorem commit_idle (tables : σ) (supply : Nat) :
    (idle tables supply).commit = idle tables supply := rfl

@[simp] theorem rollback_idle (tables : σ) (supply : Nat) :
    (idle tables supply).rollback = idle tables supply := rfl

@[simp] theorem supply_store (c : Conn σ) (tables : σ) :
    (c.store tables).supply = c.supply := by
  unfold store
  split <;> rfl

@[simp] theorem view_store (c : Conn σ) (tables : σ) :
    (c.store tables).view = tables := by
  unfold store view
  split <;> simp [*]

@[simp] theorem view_commit (c : Conn σ) : c.commit.view = c.view := rfl

end Conn

/-- Execute one statement on one connection. -/
def Statement.exec {σ ε β : Type} :
    Statement σ ε β → Conn σ → Except ε β × Conn σ
  | .read query, c => (.ok (query c.view), c)
  | .write update, c =>
      match update c.view with
      | .ok (value, tables) => (.ok value, c.store tables)
      | .error exc => (.error exc, c)
  | .beginImmediate nested, c =>
      match c.txn with
      | none => (.ok (), { c with txn := some c.durable })
      | some _ => (.error nested, c)
  | .commit, c => (.ok (), c.commit)
  | .rollback, c => (.ok (), c.rollback)

/--
What surrounds a run: the sites whose statements raise instead of executing,
and what other connections commit just before a statement of a site.
-/
structure Env (ℓ σ ε : Type) where
  fault : ℓ → Option ε
  outside : ℓ → σ → σ

namespace Env

variable {ℓ σ ε : Type}

/-- What a statement raises instead of executing; a rollback always executes. -/
def faultAt {β : Type} (env : Env ℓ σ ε) (site : ℓ) :
    Statement σ ε β → Option ε
  | .rollback => none
  | _ => env.fault site

/-- No faults and nobody else. -/
def quiet : Env ℓ σ ε := ⟨fun _ => none, fun _ => id⟩

/-- Another connection cannot commit while this one holds the write lock. -/
def interfere (env : Env ℓ σ ε) (site : ℓ) (c : Conn σ) : Conn σ :=
  match c.txn with
  | none => { c with durable := env.outside site c.durable }
  | some _ => c

@[simp] theorem interfere_quiet (site : ℓ) (c : Conn σ) :
    (quiet : Env ℓ σ ε).interfere site c = c := by
  unfold interfere
  split <;> rfl

@[simp] theorem faultAt_quiet {β : Type} (site : ℓ)
    (statement : Statement σ ε β) :
    (quiet : Env ℓ σ ε).faultAt site statement = none := by
  cases statement <;> rfl

end Env

namespace Program

variable {ℓ σ ε α β : Type}

/-- Run a program on a connection in an environment. -/
def run (env : Env ℓ σ ε) : Program ℓ σ ε α → Conn σ →
    Except (Raised ℓ ε) α × Conn σ
  | .done value, c => (.ok value, c)
  | .fail raised, c => (.error raised, c)
  | .draw next, c =>
      (next (c.supply + 1)).run env { c with supply := c.supply + 1 }
  | .issue site statement next, c =>
      let c := env.interfere site c
      match env.faultAt site statement with
      | some exc => (next (.error ⟨site, exc⟩)).run env c
      | none =>
          match statement.exec c with
          | (.ok value, c) => (next (.ok value)).run env c
          | (.error exc, c) => (next (.error ⟨site, exc⟩)).run env c

/-- What follows a run that may have raised. -/
def andThen (outcome : Except (Raised ℓ ε) α × Conn σ)
    (f : α → Conn σ → Except (Raised ℓ ε) β × Conn σ) :
    Except (Raised ℓ ε) β × Conn σ :=
  match outcome with
  | (.ok value, c) => f value c
  | (.error raised, c) => (.error raised, c)

@[simp] theorem andThen_ok (value : α) (c : Conn σ)
    (f : α → Conn σ → Except (Raised ℓ ε) β × Conn σ) :
    andThen (.ok value, c) f = f value c := rfl

@[simp] theorem andThen_error (raised : Raised ℓ ε) (c : Conn σ)
    (f : α → Conn σ → Except (Raised ℓ ε) β × Conn σ) :
    andThen (.error raised, c) f = (.error raised, c) := rfl

/-- A sequence returns only if both of its parts do. -/
theorem andThen_eq_ok {outcome : Except (Raised ℓ ε) α × Conn σ}
    {f : α → Conn σ → Except (Raised ℓ ε) β × Conn σ} {value : β}
    {c : Conn σ} (h : andThen outcome f = (.ok value, c)) :
    ∃ first between, outcome = (.ok first, between) ∧
      f first between = (.ok value, c) := by
  obtain ⟨result, between⟩ := outcome
  cases result with
  | error raised => cases h
  | ok first => exact ⟨first, between, rfl, h⟩

variable (env : Env ℓ σ ε)

@[simp] theorem run_pure (value : α) (c : Conn σ) :
    (pure value : Program ℓ σ ε α).run env c = (.ok value, c) := rfl

@[simp] theorem run_done (value : α) (c : Conn σ) :
    (Program.done value : Program ℓ σ ε α).run env c = (.ok value, c) := rfl

@[simp] theorem run_fail (raised : Raised ℓ ε) (c : Conn σ) :
    (Program.fail raised : Program ℓ σ ε α).run env c =
      (.error raised, c) := rfl

@[simp] theorem run_raise (site : ℓ) (exc : ε) (c : Conn σ) :
    (raise site exc : Program ℓ σ ε α).run env c =
      (.error ⟨site, exc⟩, c) := rfl

/-- Running a sequence runs the first part and then, if it returned, the rest. -/
@[simp] theorem run_bind (p : Program ℓ σ ε α) (f : α → Program ℓ σ ε β)
    (c : Conn σ) :
    (p >>= f).run env c =
      andThen (p.run env c) fun value c => (f value).run env c := by
  change (p.bind f).run env c = _
  induction p generalizing c with
  | done value => rfl
  | fail raised => rfl
  | draw next ih => exact ih _ _
  | issue site statement next ih =>
      simp only [bind, run]
      cases env.faultAt site statement with
      | some exc => exact ih _ _
      | none =>
          rcases statement.exec (env.interfere site c) with ⟨outcome, c'⟩
          cases outcome with
          | ok value => exact ih _ _
          | error exc => exact ih _ _

theorem run_map (p : Program ℓ σ ε α) (f : α → β) (c : Conn σ) :
    (f <$> p).run env c =
      andThen (p.run env c) fun value c => (.ok (f value), c) := by
  change (p.bind fun value => .done (f value)).run env c = _
  exact run_bind env p _ c

/-- A handler sees the tables as the exception left them. -/
@[simp] theorem run_tryCatch (p : Program ℓ σ ε α)
    (handler : Raised ℓ ε → Program ℓ σ ε α) (c : Conn σ) :
    (p.tryCatch handler).run env c =
      match p.run env c with
      | (.ok value, c) => (.ok value, c)
      | (.error raised, c) => (handler raised).run env c := by
  induction p generalizing c with
  | done value => rfl
  | fail raised => rfl
  | draw next ih => exact ih _ _
  | issue site statement next ih =>
      simp only [tryCatch, run]
      cases env.faultAt site statement with
      | some exc => exact ih _ _
      | none =>
          rcases statement.exec (env.interfere site c) with ⟨outcome, c'⟩
          cases outcome with
          | ok value => exact ih _ _
          | error exc => exact ih _ _

@[simp] theorem run_ofExcept_ok (site : ℓ) (value : α) (c : Conn σ) :
    (ofExcept site (.ok value) : Program ℓ σ ε α).run env c =
      (.ok value, c) := rfl

@[simp] theorem run_ofExcept_error (site : ℓ) (exc : ε) (c : Conn σ) :
    (ofExcept site (.error exc) : Program ℓ σ ε α).run env c =
      (.error ⟨site, exc⟩, c) := rfl

@[simp] theorem run_fresh (c : Conn σ) :
    (fresh : Program ℓ σ ε Nat).run env c =
      (.ok (c.supply + 1), { c with supply := c.supply + 1 }) := rfl

section Quiet

variable (site : ℓ) (c : Conn σ)

theorem run_exec_quiet (statement : Statement σ ε α) :
    (exec site statement : Program ℓ σ ε α).run .quiet c =
      match statement.exec c with
      | (.ok value, c) => (.ok value, c)
      | (.error exc, c) => (.error ⟨site, exc⟩, c) := by
  simp only [exec, run, Env.interfere_quiet, Env.faultAt_quiet]
  rcases statement.exec c with ⟨_ | _, _⟩ <;> rfl

@[simp] theorem run_read_quiet (query : σ → α) :
    (read site query : Program ℓ σ ε α).run .quiet c =
      (.ok (query c.view), c) :=
  run_exec_quiet site c _

theorem run_write_quiet (update : σ → Except ε (α × σ)) :
    (write site update : Program ℓ σ ε α).run .quiet c =
      match update c.view with
      | .ok (value, tables) => (.ok value, c.store tables)
      | .error exc => (.error ⟨site, exc⟩, c) := by
  rw [write, run_exec_quiet, Statement.exec]
  cases update c.view <;> rfl

@[simp] theorem run_update_quiet (f : σ → σ) :
    (update site f : Program ℓ σ ε Unit).run .quiet c =
      (.ok (), c.store (f c.view)) :=
  run_write_quiet site c _

@[simp] theorem run_commit_quiet :
    (commit site : Program ℓ σ ε Unit).run .quiet c = (.ok (), c.commit) :=
  run_exec_quiet site c _

@[simp] theorem run_rollback_quiet :
    (rollback site : Program ℓ σ ε Unit).run .quiet c =
      (.ok (), c.rollback) :=
  run_exec_quiet site c _

@[simp] theorem run_beginImmediate_quiet (nested : ε) (tables : σ)
    (supply : Nat) :
    (beginImmediate site nested : Program ℓ σ ε Unit).run .quiet
      (.idle tables supply) = (.ok (), ⟨tables, some tables, supply⟩) :=
  run_exec_quiet site _ _

/-! Inside a transaction a write changes the working copy. -/

variable (t w : σ) (n : Nat)

theorem run_update_open (f : σ → σ) :
    (update site f : Program ℓ σ ε Unit).run .quiet ⟨t, some w, n⟩ =
      (.ok (), ⟨t, some (f w), n⟩) :=
  run_update_quiet site _ f

variable {t w} {change : σ → Except ε (α × σ)}

theorem run_write_open_ok {value : α} {w' : σ}
    (h : change w = .ok (value, w')) :
    (write site change : Program ℓ σ ε α).run .quiet ⟨t, some w, n⟩ =
      (.ok value, ⟨t, some w', n⟩) := by
  rw [run_write_quiet, Conn.view, Option.getD_some, h]
  rfl

theorem run_write_open_error {exc : ε} (h : change w = .error exc) :
    (write site change : Program ℓ σ ε α).run .quiet ⟨t, some w, n⟩ =
      (.error ⟨site, exc⟩, ⟨t, some w, n⟩) := by
  rw [run_write_quiet, Conn.view, Option.getD_some, h]

end Quiet

end Program

end VirtualContext.Library
