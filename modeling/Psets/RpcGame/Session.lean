/-
A whole game: the client's file, its requests and the checksums.

The client sends the lines of its file in turn, one request at a time, and starts again at
the first line after the last.  Numbers travel as decimal texts.  Client and server hash what
they see on their own sides, and at the end the client compares the four checksums: the
server has seen exactly what the client has sent, in the same order, so they match.
-/
import Psets.RpcGame.InputLines
import Psets.RpcGame.Turns

namespace Psets
namespace RpcGame

/-- `rpc_client`, but for its file, and the serial of its `RPCGameClient`. -/
structure Client (H : Type) where
  inputIndex : Nat := 0
  clientCtx : H
  serverCtx : H
  done : Bool := false
  serial : BitVec 64 := 1

section

variable {H : Type} (x : XXH3 H) (carries : TryRequest → Bool) (data : Str)
  (inputs : List InputLine)

def Client.init : Client H := { clientCtx := x.reset, serverCtx := x.reset }

/-- One turn of the loop of `run`, up to the request that `send_try` makes. -/
def Client.next (c : Client H) : Option (TryRequest × Client H) := do
  let line ← inputs[c.inputIndex]?
  let (name, count) := line.entry data
  if line.name + line.nameLen ≤ data.length then
    some (⟨decimal c.serial.toNat, name, decimal count.toNat⟩,
      { c with
        inputIndex := if c.inputIndex + 1 = inputs.length then 0 else c.inputIndex + 1
        clientCtx := x.updateUint64 (x.update c.clientCtx name) count
        serial := c.serial + 1 })
  else none

/-- `send_try` after the response: `from_str_chars` and `process_response`. -/
def Client.receive (c : Client H) (valuestr : Str) : Option (Client H) := do
  let value ← fromStrChars valuestr
  if c.done then none else some { c with serverCtx := x.updateUint64 c.serverCtx value }

/-- `Try`, where no other thread is in the server. -/
def Server.serve (s : Server H) (r : TryRequest) : Option (Str × Server H) := do
  let c ← r.parse
  let (value, s) ← call x s c
  some (decimal value.toNat, s)

/-- `run`.  A request that is not carried to the server ends the program. -/
def run : Nat → Client H × Server H → Option (Client H × Server H)
  | 0, st => some st
  | n + 1, (c, s) => do
      let (request, c) ← c.next x data inputs
      if carries request then
        let (valuestr, s) ← s.serve x request
        let c ← c.receive x valuestr
        run n (c, s)
      else none

structure DoneResponse where
  clientChecksum : Str
  serverChecksum : Str
deriving DecidableEq, Repr

/-- `Done` -/
def Server.finish (s : Server H) : DoneResponse × Server H :=
  let (clientCsum, s) := checksum x s .client
  let (serverCsum, s) := checksum x s .server
  (⟨clientCsum, serverCsum⟩, s)

/-- `finish`, with what it prints as `match`. -/
def Client.finish (c : Client H) (response : DoneResponse) : Bool :=
  x.hexdigest c.clientCtx == response.clientChecksum &&
    x.hexdigest c.serverCtx == response.serverChecksum

/-- The client's program against a server that was just started: the `match` it prints.  An
empty file cannot be mapped. -/
def game (n : Nat) : Option Bool := do
  if data = [] then none
  let scan ← scanLines data data.length ⟨0, []⟩
  let (c, s) ← run x carries data scan.inputs n (Client.init x, Server.init x)
  some (c.finish x (s.finish x).1)

/-! ## Client and server agree -/

/-- The client is between two requests, and the server idle. -/
structure Agree (inputs : List InputLine) (c : Client H) (s : Server H) : Prop where
  clientCtx : c.clientCtx = s.clientCtx
  serverCtx : c.serverCtx = s.serverCtx
  serial : c.serial = s.wantSerial
  playing : c.done = false
  serving : s.done = false
  index : c.inputIndex < inputs.length

end

variable {H : Type} {x : XXH3 H} {carries : TryRequest → Bool} {data : Str}
  {inputs : List InputLine}

theorem fromStrChars_decimal (v : BitVec 64) : fromStrChars (decimal v.toNat) = some v := by
  have hdigits : (decimal v.toNat).all Char.isDigit = true :=
    List.all_eq_true.2 fun ch hch => isDigit_of_mem_decimal hch
  have hlt : Nat.ofDigitChars 10 (decimal v.toNat) 0 < 2 ^ 64 := by
    rw [ofDigitChars_decimal]
    exact v.isLt
  rw [fromStrChars, if_pos ⟨decimal_ne_nil _, hdigits, hlt⟩, ofDigitChars_decimal,
    BitVec.ofNat_toNat, BitVec.setWidth_eq]

/-- A request arrives as what was sent. -/
theorem parse_decimal (serial value : BitVec 64) (name : Str) :
    TryRequest.parse ⟨decimal serial.toNat, name, decimal value.toNat⟩ =
      some ⟨serial, name, value⟩ := by
  rw [TryRequest.parse]
  simp only [fromStrChars_decimal, Option.bind_some, Option.map_some]

section

variable {c : Client H} {s : Server H}

/-- The line after line `i`, the first one after the last. -/
theorem next_index {i n : Nat} (hi : i < n) :
    (if i + 1 = n then 0 else i + 1) = (i + 1) % n := by
  by_cases hlast : i + 1 = n
  · rw [if_pos hlast, hlast, Nat.mod_self]
  · have hlt : i + 1 < n := by omega
    rw [if_neg hlast, Nat.mod_eq_of_lt hlt]

/-- One request and its response. -/
theorem Agree.round (h : Agree inputs c s)
    (hfile : ∀ line ∈ inputs, line.name + line.nameLen ≤ data.length)
    (hcarries : ∀ r : TryRequest, r.name ∈ inputs.map (fun l => (l.entry data).1) →
      carries r = true) (n : Nat) :
    ∃ c' s', run x carries data inputs (n + 1) (c, s) = run x carries data inputs n (c', s') ∧
      Agree inputs c' s' ∧ c'.inputIndex = (c.inputIndex + 1) % inputs.length ∧
      c'.serial = c.serial + 1 ∧ ∃ line value, inputs[c.inputIndex]? = some line ∧
        call x s ⟨c.serial, (line.entry data).1, (line.entry data).2⟩ = some (value, s') := by
  obtain ⟨hclient, hserver, hserial, hplaying, hserving, hindex⟩ := h
  obtain ⟨line, hline⟩ : ∃ line, inputs[c.inputIndex]? = some line :=
    ⟨inputs[c.inputIndex], List.getElem?_eq_getElem hindex⟩
  have hin : line ∈ inputs := List.mem_of_getElem? hline
  generalize hentry : line.entry data = entry at hcarries
  obtain ⟨name, value⟩ := entry
  have hcarried := hcarries ⟨decimal c.serial.toNat, name, decimal value.toNat⟩
    (List.mem_map.2 ⟨line, hin, by rw [hentry]⟩)
  have hcall : call x s ⟨c.serial, name, value⟩ =
      some (processTry x s ⟨c.serial, name, value⟩) := by
    rw [call, if_pos ⟨hserial, hserving⟩]
  refine ⟨{ c with
      inputIndex := if c.inputIndex + 1 = inputs.length then 0 else c.inputIndex + 1
      clientCtx := x.updateUint64 (x.update c.clientCtx name) value
      serial := c.serial + 1
      serverCtx := x.updateUint64 c.serverCtx (processTry x s ⟨c.serial, name, value⟩).1 },
    (processTry x s ⟨c.serial, name, value⟩).2, ?_, ?_, next_index hindex, rfl, line, _, hline,
    by rw [hentry]; exact hcall⟩
  · rw [run, Client.next, hline]
    simp only [Option.bind_eq_bind, Option.bind_some, hentry, hfile line hin, if_true, hcarried,
      Server.serve, parse_decimal, hcall, Client.receive, fromStrChars_decimal, hplaying,
      Bool.false_eq_true, if_false]
  · have hmod : (c.inputIndex + 1) % inputs.length < inputs.length := Nat.mod_lt _ (by omega)
    rw [← next_index hindex] at hmod
    refine ⟨?_, ?_, ?_, hplaying, hserving, hmod⟩
    · show x.updateUint64 (x.update c.clientCtx name) value =
        x.updateUint64 (x.update s.clientCtx name) value
      rw [hclient]
    · show x.updateUint64 c.serverCtx (processTry x s ⟨c.serial, name, value⟩).1 =
        x.updateUint64 s.serverCtx (processTry x s ⟨c.serial, name, value⟩).1
      rw [hserver]
    · show c.serial + 1 = s.wantSerial + 1
      rw [hserial]

/-- The calls that the lines from line `i` on make, with serials from `serial` on. -/
def workload (entries : List (Str × BitVec 64)) : Nat → Nat → BitVec 64 → List Call
  | 0, _, _ => []
  | n + 1, i, serial =>
      ((entries[i % entries.length]?).map fun e => ⟨serial, e.1, e.2⟩).toList ++
        workload entries n (i + 1) (serial + 1)

theorem workload_congr {entries : List (Str × BitVec 64)} {i j : Nat}
    (h : i % entries.length = j % entries.length) (n : Nat) (serial : BitVec 64) :
    workload entries n i serial = workload entries n j serial := by
  induction n generalizing i j serial with
  | zero => rfl
  | succ n ih =>
    have hsucc : (i + 1) % entries.length = (j + 1) % entries.length := by
      rw [Nat.add_mod, h, ← Nat.add_mod]
    rw [workload, workload, h, ih hsucc]

/-- What the requests of a run do to the server. -/
theorem Agree.run (h : Agree inputs c s)
    (hfile : ∀ line ∈ inputs, line.name + line.nameLen ≤ data.length)
    (hcarries : ∀ r : TryRequest, r.name ∈ inputs.map (fun l => (l.entry data).1) →
      carries r = true) (n : Nat) :
    ∃ c' s' rs, RpcGame.run x carries data inputs n (c, s) = some (c', s') ∧
      Agree inputs c' s' ∧ sequential x s
        (workload (inputs.map (InputLine.entry data)) n c.inputIndex c.serial) = some (rs, s') := by
  induction n generalizing c s with
  | zero => exact ⟨c, s, [], rfl, h, rfl⟩
  | succ n ih =>
    obtain ⟨c₁, s₁, hrun, h₁, hindex, hserial, line, value, hline, hcall⟩ :=
      h.round (x := x) hfile hcarries n
    obtain ⟨c', s', rs, hrest, h', hseq⟩ := ih h₁
    refine ⟨c', s', value :: rs, hrun.trans hrest, h', ?_⟩
    have hlength : (inputs.map (InputLine.entry data)).length = inputs.length := List.length_map _
    have hentry : (inputs.map (InputLine.entry data))[c.inputIndex % inputs.length]? =
        some (line.entry data) := by
      rw [Nat.mod_eq_of_lt h.index, List.getElem?_map, hline, Option.map_some]
    have hsame : workload (inputs.map (InputLine.entry data)) n (c.inputIndex + 1) (c.serial + 1) =
        workload (inputs.map (InputLine.entry data)) n c₁.inputIndex c₁.serial := by
      rw [hserial]
      apply workload_congr
      rw [hindex, hlength, Nat.mod_mod]
    rw [workload, hlength, hentry, Option.map_some, Option.toList_some, List.singleton_append,
      hsame, sequential_cons]
    exact ⟨value, s₁, rs, hcall, hseq, rfl⟩

/-- Client and server compare what they have hashed. -/
theorem Agree.finish (h : Agree inputs c s) : c.finish x (s.finish x).1 = true := by
  show (x.hexdigest c.clientCtx == x.hexdigest s.clientCtx &&
    x.hexdigest c.serverCtx == x.hexdigest s.serverCtx) = true
  rw [h.clientCtx, h.serverCtx, beq_self_eq_true, beq_self_eq_true]
  rfl

end

/-! ## The game -/

/-- The lines of a file that count. -/
def entries (data : Str) : List (Str × BitVec 64) := (data.splitOn '\n').filterMap lineEntry

theorem init_agree (h : inputs ≠ []) : Agree inputs (Client.init x) (Server.init x) :=
  ⟨rfl, rfl, rfl, rfl, rfl, List.length_pos_of_ne_nil h⟩

theorem run_nil (n : Nat) (c : Client H) (s : Server H) :
    run x carries data [] (n + 1) (c, s) = none := rfl

/-- Whatever the file and the number of requests: the game ends with checksums that match, and
the server has processed the lines of the file in turn, with serials from 1 on.  It breaks off
only when the file is empty, or when requests are wanted of a file without lines that count,
where the client reads past the end of `_inputs`. -/
theorem game_matches (n : Nat)
    (hcarries : ∀ r : TryRequest, r.name ∈ (entries data).map Prod.fst → carries r = true) :
    game x carries data n =
        (if data ≠ [] ∧ (n = 0 ∨ entries data ≠ []) then some true else none) ∧
      (entries data ≠ [] → ∃ final c s rs, scanLines data data.length ⟨0, []⟩ = some final ∧
        run x carries data final.inputs n (Client.init x, Server.init x) = some (c, s) ∧
        sequential x (Server.init x) (workload (entries data) n 0 1) = some (rs, s)) := by
  have hfuel : data.length - 0 ≤ data.length := Nat.le_of_eq (Nat.sub_zero _)
  obtain ⟨inputs, hscan, hadded⟩ := scanLines_eq (Nat.zero_le _) hfuel []
  rw [List.nil_append] at hscan
  rw [List.drop_zero] at hadded
  have hfile := hadded.inFile
  have hentries : inputs.map (InputLine.entry data) = entries data := hadded.entries
  have hcarries : ∀ r : TryRequest, r.name ∈ inputs.map (fun l => (l.entry data).1) →
      carries r = true := fun r hr => hcarries r (by rwa [← hentries, List.map_map])
  have hnil : entries data = [] ↔ inputs = [] := by
    rw [← hentries, List.map_eq_nil_iff]
  have hrun : inputs ≠ [] → ∃ c s rs,
      run x carries data inputs n (Client.init x, Server.init x) = some (c, s) ∧
        Agree inputs c s ∧
        sequential x (Server.init x) (workload (entries data) n 0 1) = some (rs, s) := fun h => by
    have hagree := (init_agree (x := x) h).run (x := x) hfile hcarries n
    rwa [hentries] at hagree
  constructor
  · rw [game]
    by_cases hdata : data = []
    · rw [if_pos hdata, if_neg fun h => h.1 hdata]
      rfl
    · simp only [hdata, if_false, hscan, Option.bind_eq_bind, Option.bind_some,
        ne_eq, not_false_eq_true, true_and]
      by_cases hinputs : inputs = []
      · cases n with
        | zero =>
          rw [if_pos (.inl rfl), run, Option.bind_some]
          show some ((Client.init x).finish x ((Server.init x).finish x).1) = some true
          rw [Client.finish]
          simp [Server.finish, checksum, Client.init, Server.init]
        | succ n =>
          rw [if_neg (by simp [hnil.2 hinputs]), hinputs, run_nil, Option.bind_none]
      · obtain ⟨c, s, rs, hc, hagree, _⟩ := hrun hinputs
        rw [if_pos (.inr fun h => hinputs (hnil.1 h)), hc, Option.bind_some]
        show some (c.finish x (s.finish x).1) = some true
        rw [hagree.finish]
  · intro h
    obtain ⟨c, s, rs, hc, _, hseq⟩ := hrun fun hinputs => h (hnil.2 hinputs)
    exact ⟨_, c, s, rs, hscan, hc, hseq⟩

/-- Three requests from a file of two lines, and one line that does not count. -/
theorem game_matches_lines :
    game transcript (fun r => r.name.all (·.val < 128)) "ada,7\nbob\ncyd,9".toList 3 = some true :=
  have hnames : ∀ name ∈ (entries "ada,7\nbob\ncyd,9".toList).map Prod.fst,
      name.all (·.val < 128) = true := by decide +kernel
  (game_matches 3 fun r hr => hnames r.name hr).1.trans (by decide +kernel)

end RpcGame
end Psets
