import Webtermo.Library.Run
import Webtermo.Library.Words
import Webtermo.Execution.Wapp.Step

open Define

-- The words of the backup SRAM: `InitNV` of `main.c`, `UpdateMKT` of `logger.c` and who else writes there
namespace Nvram

abbrev Nv := Words UInt32

def valid : UInt32 := 0x0155AAFE

-- A region with the address of its magic, and what is cleared in it
structure Region where
  init  : Nat
  words : List Nat

-- The sums and the counts of the means
def logger : Region where
  init  := nvLoggerInit
  words := (List.range 16).map fun cnt => nvLoggerInit + cnt * 4 + 4

-- The counts and the logs for the mean kinetic temperatures
def mkt : Region where
  init  := nvMktInit
  words := (List.range 8).map (fun cnt => nvMktCountSen1 + cnt * 4) ++
    (List.range 160).map (fun cnt => nvMktSen1 + cnt * 4)

def Region.Valid (r : Region) (m : Nv) : Prop :=
  m r.init = valid

instance {r : Region} : Decidable (r.Valid m) :=
  inferInstanceAs <| Decidable (_ = _)

-- The magic comes first.
def Region.writes (r : Region) (m : Nv) : List (Nat × UInt32) :=
  if r.Valid m then [] else (r.init, valid) :: r.words.map (·, 0)

def initNV.writes (m : Nv) : List (Nat × UInt32) :=
  let ws := logger.writes m
  ws ++ mkt.writes (m.writes ws)

def initNV (m : Nv) : Nv :=
  m.writes (initNV.writes m)

-- A reset after the first `n` writes of `InitNV`
def interrupted : Machine Nv Nat (Nat × UInt32) where
  step m n :=
    let ws := (initNV.writes m).take n
    some (m.writes ws, ws)

-- The delays of the sensors and those of the inputs
def delays : List Nat :=
  (List.range 8).map (fun cnt => nvDelaySen1 + cnt * 4) ++
    (List.range 3).map (fun cnt => nvDelayIn1 + cnt * 4)

-- The loops of `ptAlarmDelay` over the delays, of which each has its setting. The alarms are those whose
-- delay has run out.
def ptAlarmDelay (setting : Nat → UInt16) (m : Nv) : List Nat → Nv × List Nat
  | []      => (m, [])
  | a :: as =>
    let (word, alarm) := Wapp.delayTurn (m a) (setting a)
    let (m, alarms)   := ptAlarmDelay setting (m.write a word) as
    (m, if alarm then a :: alarms else alarms)

-- The values are the bit patterns of their `float`.
def updateMKT (m : Nv) (mktlog pcount : Nat) (newtemp : UInt32) : Nv :=
  let lgcount := m pcount
  if lgcount < 20 then
    (m.write (mktlog + lgcount.toNat * 4) newtemp).write pcount (lgcount + 1)
  else
    ((m.shift (fun cnt => mktlog + cnt * 4) 19).write (mktlog + 19 * 4) newtemp).write pcount lgcount

def mktlog (k : Fin 8) : Nat :=
  nvMktSen1 + 80 * k.val

def mktcount (k : Fin 8) : Nat :=
  nvMktCountSen1 + k.val * 4

-- The writes to the backup SRAM behind `InitNV`
inductive Access
  -- `SaveTemp` calls `UpdateMKT`.
  | mkt (k : Fin 8) (newtemp : UInt32)
  -- `ptReadTemp` adds to a mean, `SaveTemp` and `SaveHaccp` clear it.
  | mean (k : Fin 8) (sum count : UInt32)
  -- A delay is started, counted or cleared.
  | delay (i : Fin 11) (word : UInt32)

def access (m : Nv) : Access → Nv
  | .mkt k newtemp    => updateMKT m (mktlog k) (mktcount k) newtemp
  | .mean k sum count => (m.write (nvSumSen1 + k.val * 8) sum).write (nvCountSen1 + k.val * 8) count
  | .delay i word     => m.write (nvDelaySen1 + i.val * 4) word

end Nvram
