import Okm6ullOta.BootEnvironment
import Okm6ullOta.PowerCutScripts
import Okm6ullOta.TextNumerals

/-!
# The U-Boot commands the scripts are made of

A machine has the RAM copy of the environment, the board as a power cut leaves
it, and what the last `fatload` put at each load address. `setenv` changes RAM
only, `saveenv` stores the whole RAM copy, and `bootz` either returns with an
error or hands the board to Linux for good. The two load addresses are disjoint
places and the FAT boot partition is fixed. Which files it has, which transfers
succeed and whether `bootz` returns are supplied for each execution; a script
loads no file twice, so one answer a file covers every outcome.

`setexpr` reads and writes hexadecimal digits on 32 bits, `test -gt` reads
decimal ones.
-/
namespace Okm6ullOta.UBootCommands
open BootEnvironment PowerCutScripts TextNumerals

inductive Place where
  | loadaddr | fdt_addr
  deriving DecidableEq, Repr

inductive Cmd where
  | echo (w : Word)
  | setenv (x : Var) (w : Word)
  | setexprAdd (x : Var) (w : Word) (n : ℕ)
  | saveenv
  | reset
  | testEq (w : Word) (text : String)
  | testNe (w : Word) (text : String)
  | testGt (w : Word) (n : ℕ)
  | fatload (p : Place) (file : Word)
  | bootz
  deriving DecidableEq, Repr

/-- What Linux is handed: its command line, and which files are its images. -/
structure Session where
  bootargs : String
  kernel : Option String
  fdt : Option String
  deriving DecidableEq, Repr

/-- The board without its RAM. -/
structure Board where
  disk : Env
  session : Option Session

structure Machine where
  ram : Env
  board : Board
  kernel : Option String
  fdt : Option String

structure Outcomes where
  present : String → Bool
  transfer : String → Bool
  bootzReturns : Bool

def Outcomes.loads (o : Outcomes) (file : String) : Bool := o.present file && o.transfer file

/-- What an execution is observed by: `setexpr` results, `saveenv`, a `-gt` test
which succeeds, `bootz`, and Linux taking over. The console is not observed. -/
inductive Event where
  | calculated (x : Var) (v : String)
  | saved (e : Env)
  | exceeded (v : String) (n : ℕ)
  | booting (ram : Env) (kernel : Option String)
  | handedOff (s : Session)

/-- Loading over a place: a failed transfer leaves no image there. -/
def Machine.load (m : Machine) (p : Place) (image : Option String) : Machine :=
  match p with
  | .loadaddr => { m with kernel := image }
  | .fdt_addr => { m with fdt := image }

@[simp] theorem Machine.load_ram (m : Machine) (p : Place) (i : Option String) :
    (m.load p i).ram = m.ram := by cases p <;> rfl

@[simp] theorem Machine.load_load (m : Machine) (p : Place) (i j : Option String) :
    (m.load p i).load p j = m.load p j := by cases p <;> rfl

def Machine.session (m : Machine) : Session := ⟨m.ram .bootargs, m.kernel, m.fdt⟩

def exec (o : Outcomes) : Cmd → Machine → Reply Machine Event
  | .echo _, m => ⟨m, [], true, false⟩
  | .setenv x w, m => ⟨{ m with ram := m.ram.set x (expand m.ram w) }, [], true, false⟩
  | .setexprAdd x w n, m =>
    let v := numeral 16 ((leading 16 (expand m.ram w) + n) % 2 ^ 32)
    ⟨{ m with ram := m.ram.set x v }, [.calculated x v], true, false⟩
  | .saveenv, m => ⟨{ m with board := { m.board with disk := m.ram } }, [.saved m.ram], true, false⟩
  | .reset, m => ⟨m, [], true, true⟩
  | .testEq w text, m => ⟨m, [], expand m.ram w == text, false⟩
  | .testNe w text, m => ⟨m, [], expand m.ram w != text, false⟩
  | .testGt w n, m =>
    if n < leading 10 (expand m.ram w) then ⟨m, [.exceeded (expand m.ram w) n], true, false⟩
    else ⟨m, [], false, false⟩
  | .fatload p file, m =>
    let f := expand m.ram file
    ⟨m.load p (if o.loads f then some f else none), [], o.loads f, false⟩
  | .bootz, m =>
    if o.bootzReturns then ⟨m, [.booting m.ram m.kernel], false, false⟩
    else ⟨{ m with board := { m.board with session := some m.session } },
      [.booting m.ram m.kernel, .handedOff m.session], true, true⟩

/-- The part of an event which outlives a power cut. -/
def Board.absorb (b : Board) : Event → Board
  | .saved e => { b with disk := e }
  | .handedOff s => { b with session := some s }
  | _ => b

theorem board_tracks (o : Outcomes) : Tracks (exec o) Machine.board Board.absorb := by
  intro a m
  cases a with
  | fatload p file => cases p <;> rfl
  | testGt w n =>
    simp only [exec]
    split_ifs <;> rfl
  | bootz =>
    simp only [exec]
    split_ifs <;> rfl
  | _ => rfl

/-- Out of reset, with the RAM copy and the stored environment U-Boot prepared. -/
def Machine.start (ram disk : Env) : Machine := ⟨ram, ⟨disk, none⟩, none, none⟩

end Okm6ullOta.UBootCommands
