import OsLabs.Lib.Sys
import OsLabs.Lib.TextLine

/-!
# A session with the echo server (`echoclient.c`, `echo` of `echoserver-fork.c`)

The client reads a line of its input, sends it, and waits for a line before it goes on; the server child waits for a line and sends it
back. The bytes arrive in pieces of any size. The client sends the line up to its first zero byte, and the server does not answer before
it has a whole line. So a line with a zero byte, or one without its newline at the end of the input, makes both wait for ever, each for
the other (`session_ends`). Otherwise the client prints its input, and the server counts its length.
-/

namespace OsLabs.EchoSession

/-- `Rio_readlineb(&rio, buf, maxline)`: what it takes from the bytes that have arrived, and what it leaves. It waits until there is a
whole line or the end of the stream. -/
structure Rio (maxline : Nat) where
  readlineb : List Byte → Bool → Option (List Byte × List Byte)
  takes : ∀ arrived eof, readlineb arrived eof =
    if WholeLine (maxline - 1) arrived ∨ eof = true then some (splitLine (maxline - 1) arrived) else none

/-- `fgets(buf, maxline, stdin)`: the line, and what is left of the input. -/
def fgets (maxline : Nat) (input : List Byte) : Option (List Byte × List Byte) :=
  if input = [] then none else some (splitLine (maxline - 1) input)

/-- The string in a buffer with these bytes and a zero byte behind them. -/
def cString (buf : List Byte) : List Byte := buf.takeWhile fun b => b ≠ 0

/-- One direction of the connection: the bytes on the way and those that have arrived, whether it was closed, and whether the end has
arrived. -/
structure Stream where
  wire : List Byte
  arrived : List Byte
  closed : Bool
  eof : Bool

/-- Some bytes are sent. -/
def Stream.send (c : Stream) (l : List Byte) : Stream := { c with wire := c.wire ++ l }

/-- The first `k` bytes arrive. -/
def Stream.deliver (c : Stream) (k : Nat) : Stream := { c with wire := c.wire.drop k, arrived := c.arrived ++ c.wire.take k }

/-- Where the client is: before `Fgets`, in `Rio_readlineb`, or past its loop. -/
inductive Client where
  | fgets | readline | ended
  deriving DecidableEq

/-- Where the server child is: in `Rio_readlineb`, before `Rio_writen`, before `c->nread += n`, or past its loop. -/
inductive Server where
  | readline
  | writen (buf : List Byte)
  | count (n : Nat)
  | ended
  deriving DecidableEq

/-- Both processes and both directions. -/
structure State where
  client : Client
  input : List Byte
  buf : List Byte
  output : List Byte
  server : Server
  nread : Nat
  up : Stream
  down : Stream

/-- The steps. At the end of the stream `Rio_readlineb` leaves the buffer as it is. The server process never closes its own `connfd`, so
the end that the child closes in `quit` does not reach the client; but the child quits only at the end of what the client sends, and by
then the client has closed its socket and reads no more. -/
inductive Step {maxline : Nat} (rio : Rio maxline) : State → State → Prop where
  | send {s : State} {l rest : List Byte} (h : s.client = .fgets) (hl : fgets maxline s.input = some (l, rest)) :
      Step rio s { s with client := .readline, input := rest, buf := l, up := s.up.send (cString l) }
  | close {s : State} (h : s.client = .fgets) (hl : fgets maxline s.input = none) :
      Step rio s { s with client := .ended, up := { s.up with closed := true } }
  | print {s : State} {l rest : List Byte} (h : s.client = .readline)
      (hl : rio.readlineb s.down.arrived s.down.eof = some (l, rest)) :
      Step rio s
        (let buf := if l = [] then s.buf else l
         { s with client := .fgets, buf := buf, output := s.output ++ cString buf, down := { s.down with arrived := rest } })
  | read {s : State} {l rest : List Byte} (h : s.server = .readline) (hl : rio.readlineb s.up.arrived s.up.eof = some (l, rest))
      (hne : l ≠ []) : Step rio s { s with server := .writen l, up := { s.up with arrived := rest } }
  | quit {s : State} {rest : List Byte} (h : s.server = .readline) (hl : rio.readlineb s.up.arrived s.up.eof = some ([], rest)) :
      Step rio s { s with server := .ended, down := { s.down with closed := true } }
  | write {s : State} {buf : List Byte} (h : s.server = .writen buf) :
      Step rio s { s with server := .count buf.length, down := s.down.send buf }
  | count {s : State} {n : Nat} (h : s.server = .count n) : Step rio s { s with server := .readline, nread := s.nread + n }
  | arriveUp {s : State} (k : Nat) (hk : 0 < k) (hw : k ≤ s.up.wire.length) : Step rio s { s with up := s.up.deliver k }
  | arriveDown {s : State} (k : Nat) (hk : 0 < k) (hw : k ≤ s.down.wire.length) : Step rio s { s with down := s.down.deliver k }
  | eofUp {s : State} (hc : s.up.closed = true) (hw : s.up.wire = []) (he : s.up.eof = false) :
      Step rio s { s with up := { s.up with eof := true } }
  | eofDown {s : State} (hc : s.down.closed = true) (hw : s.down.wire = []) (he : s.down.eof = false) :
      Step rio s { s with down := { s.down with eof := true } }

/-- A stream on which nothing was sent. -/
def Stream.fresh : Stream := ⟨[], [], false, false⟩

/-- The start of a session. -/
def start (input : List Byte) : State := ⟨.fgets, input, [], [], .readline, 0, .fresh, .fresh⟩

/-- The sessions with some input. -/
def session {maxline : Nat} (rio : Rio maxline) (input : List Byte) : Sys State Unit where
  init s := s = start input
  step s _ s' := Step rio s s'

/-! ## The inputs that are echoed -/

/-- Every line of the input is whole and without a zero byte. -/
inductive Good (maxline : Nat) : List Byte → Prop where
  | nil : Good maxline []
  | cons {input : List Byte} (hne : input ≠ []) (h0 : (0 : Byte) ∉ (splitLine (maxline - 1) input).1)
      (hw : WholeLine (maxline - 1) input) (h : Good maxline (splitLine (maxline - 1) input).2) : Good maxline input

/-- What is sent of a line is a whole line. -/
def Echoed (maxline : Nat) (l : List Byte) : Prop := WholeLine (maxline - 1) (cString l)

variable {maxline : Nat} {rio : Rio maxline} {s s' : State} {total l rest arrived input : List Byte}

theorem prefix_cString (l : List Byte) : cString l <+: l := List.takeWhile_prefix _

theorem cString_eq_self : cString l = l ↔ (0 : Byte) ∉ l := by
  unfold cString
  rw [List.takeWhile_eq_self_iff]
  constructor
  · intro h h0
    simpa using h 0 h0
  · intro h b hb
    have hne : b ≠ 0 := fun e => h (e ▸ hb)
    simpa using hne

/-- A line is echoed when it is whole and has no zero byte. -/
theorem echoed_iff (h : splitLine (maxline - 1) input = (l, rest)) :
    Echoed maxline l ↔ (0 : Byte) ∉ l ∧ WholeLine (maxline - 1) l := by
  have hl : l = (splitLine (maxline - 1) input).1 := by rw [h]
  unfold Echoed
  constructor
  · intro hw
    have heq : cString l = l := by
      by_contra hne
      subst hl
      exact not_wholeLine_of_prefix (prefix_cString _) hne hw
    exact ⟨cString_eq_self.mp heq, heq ▸ hw⟩
  · rintro ⟨h0, hw⟩
    rwa [cString_eq_self.mpr h0]

/-- An input is good when its first line is echoed and the rest is good. -/
theorem good_iff (hne : input ≠ []) (h : splitLine (maxline - 1) input = (l, rest)) :
    Good maxline input ↔ Echoed maxline l ∧ Good maxline rest := by
  have hw : WholeLine (maxline - 1) l ↔ WholeLine (maxline - 1) input := by
    have hx := wholeLine_splitLine (n := maxline - 1) (l := input)
    rwa [h] at hx
  rw [echoed_iff h, hw]
  constructor
  · intro hg
    cases hg with
    | nil => exact absurd rfl hne
    | cons _ h0 hwhole hrest =>
      rw [h] at h0 hrest
      exact ⟨⟨h0, hwhole⟩, hrest⟩
  · rintro ⟨⟨h0, hwhole⟩, hrest⟩
    exact .cons hne (by rwa [h]) hwhole (by rwa [h])

/-- `out` are the first lines of `total`, all of them echoed, and `rest` is what follows. -/
inductive Upto (maxline : Nat) (total : List Byte) : List Byte → List Byte → Prop where
  | nil : Upto maxline total [] total
  | line {out rest l rest' : List Byte} (h : Upto maxline total out rest) (hne : rest ≠ [])
      (hl : splitLine (maxline - 1) rest = (l, rest')) (he : Echoed maxline l) : Upto maxline total (out ++ l) rest'

theorem Upto.append {out : List Byte} (h : Upto maxline total out rest) : out ++ rest = total := by
  induction h with
  | nil => rfl
  | @line out rest l rest' _ _ hl _ ih =>
    have happ := splitLine_append (maxline - 1) rest
    rw [hl] at happ
    rw [List.append_assoc, happ, ih]

/-- The input is good when its rest is. -/
theorem Upto.good {out : List Byte} (h : Upto maxline total out rest) : Good maxline total ↔ Good maxline rest := by
  induction h with
  | nil => exact Iff.rfl
  | line _ hne hl he ih =>
    rw [ih, good_iff hne hl]
    exact and_iff_right he

/-- A reader that waits for a line gets all of it. -/
theorem takes_all (h : splitLine (maxline - 1) input = (l, rest)) (hp : arrived <+: l) {got left : List Byte}
    (hr : rio.readlineb arrived false = some (got, left)) :
    arrived = l ∧ got = l ∧ left = [] ∧ WholeLine (maxline - 1) l := by
  have hl : (splitLine (maxline - 1) input).1 = l := by rw [h]
  rw [rio.takes] at hr
  by_cases hw : WholeLine (maxline - 1) arrived
  · have heq : arrived = l := by
      by_contra hne
      rw [← hl] at hp hne
      exact not_wholeLine_of_prefix hp hne hw
    have hself := splitLine_splitLine (maxline - 1) input
    rw [hl] at hself
    rw [if_pos (Or.inl hw), heq, hself] at hr
    cases hr
    exact ⟨heq, rfl, rfl, heq ▸ hw⟩
  · rw [if_neg (by simp [hw])] at hr
    cases hr

/-! ## One line after the other -/

/-- What the server has still to count, when it is not about to write. -/
def Server.uncounted : Server → Option Nat
  | .readline => some 0
  | .count n => some n
  | _ => none

/-- Between two lines. -/
structure Idle (maxline : Nat) (total : List Byte) (s : State) : Prop where
  client : s.client = .fgets
  up : s.up = .fresh
  down : s.down = .fresh
  upto : Upto maxline total s.output s.input
  count : ∃ k, s.server.uncounted = some k ∧ s.nread + k = s.output.length

/-- The client waits for the answer to the line in its buffer. -/
structure Asked (maxline : Nat) (total : List Byte) (s : State) : Prop where
  client : s.client = .readline
  line : splitLine (maxline - 1) (s.buf ++ s.input) = (s.buf, s.input)
  ne_nil : s.buf ≠ []
  upto : Upto maxline total s.output (s.buf ++ s.input)

/-- The line is on the way to the server. -/
structure Going (maxline : Nat) (total : List Byte) (s : State) : Prop extends Asked maxline total s where
  up : s.up.arrived ++ s.up.wire = cString s.buf
  upOpen : s.up.closed = false ∧ s.up.eof = false
  down : s.down = .fresh
  count : ∃ k, s.server.uncounted = some k ∧ s.nread + k = s.output.length

/-- The server has the line. -/
structure Serving (maxline : Nat) (total : List Byte) (s : State) : Prop extends Asked maxline total s where
  up : s.up = .fresh
  down : s.down = .fresh
  server : s.server = .writen s.buf
  whole : Echoed maxline s.buf
  count : s.nread = s.output.length

/-- The line is on the way back. -/
structure Coming (maxline : Nat) (total : List Byte) (s : State) : Prop extends Asked maxline total s where
  up : s.up = .fresh
  down : s.down.arrived ++ s.down.wire = s.buf
  downOpen : s.down.closed = false ∧ s.down.eof = false
  whole : Echoed maxline s.buf
  count : ∃ k, s.server.uncounted = some k ∧ s.nread + k = s.output.length + s.buf.length

/-- The client has gone. -/
structure Gone (maxline : Nat) (total : List Byte) (s : State) : Prop where
  client : s.client = .ended
  up : s.up.wire = [] ∧ s.up.arrived = [] ∧ s.up.closed = true
  upto : Upto maxline total s.output []
  server : (∃ k, s.server.uncounted = some k ∧ s.nread + k = total.length ∧ s.down = .fresh) ∨
    s.server = .ended ∧ s.nread = total.length ∧ s.down.wire = [] ∧ s.down.closed = true

/-- Where a session is. -/
def Phase (maxline : Nat) (total : List Byte) (s : State) : Prop :=
  Idle maxline total s ∨ Going maxline total s ∨ Serving maxline total s ∨ Coming maxline total s ∨ Gone maxline total s

/-- Nothing can be read where nothing has arrived. -/
theorem readlineb_nil (hm : 1 < maxline) (rio : Rio maxline) : rio.readlineb [] false = none := by
  have hw : ¬ WholeLine (maxline - 1) [] := by
    simp only [WholeLine, List.take_nil, List.not_mem_nil, false_or, List.length_nil, Nat.le_zero]
    omega
  rw [rio.takes, if_neg (by simp [hw])]

/-- From a state between two lines. -/
theorem idle_step (hm : 1 < maxline) (hp : Idle maxline total s) (h : Step rio s s') : Phase maxline total s' := by
  obtain ⟨hclient, hup, hdown, hupto, ⟨k, hk, hcount⟩⟩ := hp
  cases h with
  | @send l rest hc hl =>
    unfold fgets at hl
    split at hl
    · cases hl
    · next hne =>
      have hsplit := Option.some.inj hl
      have happ := splitLine_append (maxline - 1) s.input
      have hself := splitLine_ne_nil (n := maxline - 1) (by omega) hne
      rw [hsplit] at happ hself
      refine Or.inr (Or.inl ⟨⟨rfl, ?_, hself, ?_⟩, ?_, ?_, hdown, k, hk, hcount⟩)
      · show splitLine (maxline - 1) (l ++ rest) = (l, rest)
        rw [happ, hsplit]
      · show Upto maxline total s.output (l ++ rest)
        rw [happ]
        exact hupto
      · simp [hup, Stream.send, Stream.fresh]
      · simp [hup, Stream.send, Stream.fresh]
  | close hc hl =>
    have hnil : s.input = [] := by
      by_contra hne
      rw [fgets, if_neg hne] at hl
      cases hl
    rw [hnil] at hupto
    refine Or.inr (Or.inr (Or.inr (Or.inr ⟨rfl, ?_, hupto, Or.inl ⟨k, hk, ?_, hdown⟩⟩)))
    · simp [hup, Stream.fresh]
    · show s.nread + k = total.length
      rw [hcount, ← hupto.append, List.append_nil]
  | print hc hl => rw [hclient] at hc; cases hc
  | read hs hl hne =>
    rw [hup, Stream.fresh, readlineb_nil hm] at hl
    cases hl
  | quit hs hl =>
    rw [hup, Stream.fresh, readlineb_nil hm] at hl
    cases hl
  | write hs => rw [hs] at hk; cases hk
  | @count n hs =>
    rw [hs] at hk
    cases hk
    exact Or.inl ⟨hclient, hup, hdown, hupto, 0, rfl, hcount⟩
  | arriveUp j hj hw =>
    rw [hup, Stream.fresh, List.length_nil] at hw
    omega
  | arriveDown j hj hw =>
    rw [hdown, Stream.fresh, List.length_nil] at hw
    omega
  | eofUp hc hw he => rw [hup] at hc; cases hc
  | eofDown hc hw he => rw [hdown] at hc; cases hc

/-- While the line is on the way to the server. -/
theorem going_step (hm : 1 < maxline) (hp : Going maxline total s) (h : Step rio s s') : Phase maxline total s' := by
  obtain ⟨⟨hclient, hline, hne, hupto⟩, hup, ⟨hopen, heof⟩, hdown, ⟨k, hk, hcount⟩⟩ := hp
  have hpre : s.up.arrived <+: cString s.buf := ⟨_, hup⟩
  cases h with
  | send hc hl => rw [hclient] at hc; cases hc
  | close hc hl => rw [hclient] at hc; cases hc
  | print hc hl =>
    rw [hdown, Stream.fresh, readlineb_nil hm] at hl
    cases hl
  | @read l rest hs hl hnil =>
    rw [heof] at hl
    obtain ⟨harr, rfl, rfl, hwhole⟩ := takes_all hline (hpre.trans (prefix_cString _)) hl
    rw [harr] at hup hpre
    have hstring : cString s.buf = s.buf :=
      (prefix_cString s.buf).eq_of_length (Nat.le_antisymm (prefix_cString _).length_le hpre.length_le)
    have hwire : s.up.wire = [] := by simpa [hstring] using hup
    have hserver : s.server.uncounted = some 0 := by rw [hs]; rfl
    rw [hserver] at hk
    cases hk
    refine Or.inr (Or.inr (Or.inl ⟨⟨hclient, hline, hne, hupto⟩, ?_, hdown, rfl, ?_, hcount⟩))
    · simp [Stream.fresh, hwire, hopen, heof]
    · exact (echoed_iff hline).mpr ⟨cString_eq_self.mp hstring, hwhole⟩
  | quit hs hl =>
    rw [heof] at hl
    obtain ⟨-, hbuf, -, -⟩ := takes_all hline (hpre.trans (prefix_cString _)) hl
    exact absurd hbuf.symm hne
  | write hs => rw [hs] at hk; cases hk
  | @count n hs =>
    rw [hs] at hk
    cases hk
    exact Or.inr (Or.inl ⟨⟨hclient, hline, hne, hupto⟩, hup, ⟨hopen, heof⟩, hdown, 0, rfl, hcount⟩)
  | arriveUp j hj hw =>
    refine Or.inr (Or.inl ⟨⟨hclient, hline, hne, hupto⟩, ?_, ⟨hopen, heof⟩, hdown, k, hk, hcount⟩)
    show s.up.arrived ++ s.up.wire.take j ++ s.up.wire.drop j = _
    rw [List.append_assoc, List.take_append_drop, hup]
  | arriveDown j hj hw =>
    rw [hdown, Stream.fresh, List.length_nil] at hw
    omega
  | eofUp hc hw he => rw [hopen] at hc; cases hc
  | eofDown hc hw he => rw [hdown] at hc; cases hc

/-- While the server has the line. -/
theorem serving_step (hm : 1 < maxline) (hp : Serving maxline total s) (h : Step rio s s') : Phase maxline total s' := by
  obtain ⟨⟨hclient, hline, hne, hupto⟩, hup, hdown, hserver, hwhole, hcount⟩ := hp
  cases h with
  | send hc hl => rw [hclient] at hc; cases hc
  | close hc hl => rw [hclient] at hc; cases hc
  | print hc hl =>
    rw [hdown, Stream.fresh, readlineb_nil hm] at hl
    cases hl
  | read hs hl hnil => rw [hserver] at hs; cases hs
  | quit hs hl => rw [hserver] at hs; cases hs
  | @write buf hs =>
    rw [hserver] at hs
    cases hs
    refine Or.inr (Or.inr (Or.inr (Or.inl ⟨⟨hclient, hline, hne, hupto⟩, hup, ?_, ?_, hwhole, s.buf.length, rfl, ?_⟩)))
    · simp [hdown, Stream.send, Stream.fresh]
    · simp [hdown, Stream.send, Stream.fresh]
    · show s.nread + s.buf.length = s.output.length + s.buf.length
      rw [hcount]
  | count hs => rw [hserver] at hs; cases hs
  | arriveUp j hj hw =>
    rw [hup, Stream.fresh, List.length_nil] at hw
    omega
  | arriveDown j hj hw =>
    rw [hdown, Stream.fresh, List.length_nil] at hw
    omega
  | eofUp hc hw he => rw [hup] at hc; cases hc
  | eofDown hc hw he => rw [hdown] at hc; cases hc

/-- While the line is on the way back. -/
theorem coming_step (hm : 1 < maxline) (hp : Coming maxline total s) (h : Step rio s s') : Phase maxline total s' := by
  obtain ⟨⟨hclient, hline, hne, hupto⟩, hup, hdown, ⟨hopen, heof⟩, hwhole, ⟨k, hk, hcount⟩⟩ := hp
  cases h with
  | send hc hl => rw [hclient] at hc; cases hc
  | close hc hl => rw [hclient] at hc; cases hc
  | @print l rest hc hl =>
    rw [heof] at hl
    obtain ⟨harr, rfl, rfl, -⟩ := takes_all hline ⟨_, hdown⟩ hl
    have hwire : s.down.wire = [] := by simpa [harr] using hdown
    have hstring : cString s.buf = s.buf := cString_eq_self.mpr ((echoed_iff hline).mp hwhole).1
    refine Or.inl ⟨rfl, hup, ?_, ?_, k, hk, ?_⟩
    · simp [Stream.fresh, hwire, hopen, heof]
    · simpa [hne, hstring] using hupto.line (by simp [hne]) hline hwhole
    · simpa [hne, hstring] using hcount
  | read hs hl hnil =>
    rw [hup, Stream.fresh, readlineb_nil hm] at hl
    cases hl
  | quit hs hl =>
    rw [hup, Stream.fresh, readlineb_nil hm] at hl
    cases hl
  | write hs => rw [hs] at hk; cases hk
  | @count n hs =>
    rw [hs] at hk
    cases hk
    exact Or.inr (Or.inr (Or.inr (Or.inl ⟨⟨hclient, hline, hne, hupto⟩, hup, hdown, ⟨hopen, heof⟩, hwhole, 0, rfl, hcount⟩)))
  | arriveUp j hj hw =>
    rw [hup, Stream.fresh, List.length_nil] at hw
    omega
  | arriveDown j hj hw =>
    refine Or.inr (Or.inr (Or.inr (Or.inl
      ⟨⟨hclient, hline, hne, hupto⟩, hup, ?_, ⟨hopen, heof⟩, hwhole, k, hk, hcount⟩)))
    show s.down.arrived ++ s.down.wire.take j ++ s.down.wire.drop j = _
    rw [List.append_assoc, List.take_append_drop, hdown]
  | eofUp hc hw he => rw [hup] at hc; cases hc
  | eofDown hc hw he => rw [hopen] at hc; cases hc

/-- When the client has gone. -/
theorem gone_step (hp : Gone maxline total s) (h : Step rio s s') : Phase maxline total s' := by
  obtain ⟨hclient, ⟨hwire, harr, hclosed⟩, hout, hserver⟩ := hp
  have gone : ∀ t : State, t.client = .ended → (t.up.wire = [] ∧ t.up.arrived = [] ∧ t.up.closed = true) →
      Upto maxline total t.output [] →
      ((∃ k, t.server.uncounted = some k ∧ t.nread + k = total.length ∧ t.down = .fresh) ∨
        t.server = .ended ∧ t.nread = total.length ∧ t.down.wire = [] ∧ t.down.closed = true) → Phase maxline total t :=
    fun t h1 h2 h3 h4 => Or.inr (Or.inr (Or.inr (Or.inr ⟨h1, h2, h3, h4⟩)))
  cases h with
  | send hc hl => rw [hclient] at hc; cases hc
  | close hc hl => rw [hclient] at hc; cases hc
  | print hc hl => rw [hclient] at hc; cases hc
  | read hs hl hnil =>
    rw [rio.takes, harr, splitLine_nil] at hl
    split at hl
    · cases hl
      exact absurd rfl hnil
    · cases hl
  | quit hs hl =>
    rcases hserver with ⟨k, hk, hn, hdown⟩ | ⟨he, -⟩
    · rw [hs] at hk
      cases hk
      refine gone _ hclient ⟨hwire, harr, hclosed⟩ hout (Or.inr ⟨rfl, hn, ?_, rfl⟩)
      simp [hdown, Stream.fresh]
    · rw [hs] at he
      cases he
  | write hs =>
    rcases hserver with ⟨k, hk, -, -⟩ | ⟨he, -⟩
    · rw [hs] at hk
      cases hk
    · rw [hs] at he
      cases he
  | @count n hs =>
    rcases hserver with ⟨k, hk, hn, hdown⟩ | ⟨he, -⟩
    · rw [hs] at hk
      cases hk
      exact gone _ hclient ⟨hwire, harr, hclosed⟩ hout (Or.inl ⟨0, rfl, hn, hdown⟩)
    · rw [hs] at he
      cases he
  | arriveUp j hj hw =>
    rw [hwire, List.length_nil] at hw
    omega
  | arriveDown j hj hw =>
    have hnil : s.down.wire = [] := by
      rcases hserver with ⟨k, -, -, hdown⟩ | ⟨-, -, hnil, -⟩
      · rw [hdown]
        rfl
      · exact hnil
    rw [hnil, List.length_nil] at hw
    omega
  | eofUp hc hw he => exact gone _ hclient ⟨hwire, harr, hclosed⟩ hout hserver
  | eofDown hc hw he =>
    refine gone _ hclient ⟨hwire, harr, hclosed⟩ hout (Or.inr ?_)
    rcases hserver with ⟨k, -, -, hdown⟩ | hend
    · rw [hdown] at hc
      cases hc
    · exact hend

/-- A session is always in one of these phases. -/
theorem phase_reach (hm : 1 < maxline) (h : (session rio total).Reach s) : Phase maxline total s := by
  refine Sys.Inductive.reach (I := Phase maxline total) ⟨?_, fun s _ s' hp hst => ?_⟩ h
  · rintro s rfl
    exact Or.inl ⟨rfl, rfl, rfl, .nil, 0, rfl, rfl⟩
  · rcases hp with hp | hp | hp | hp | hp
    · exact idle_step hm hp hst
    · exact going_step hm hp hst
    · exact serving_step hm hp hst
    · exact coming_step hm hp hst
    · exact gone_step hp hst

/-! ## How a session ends -/

/-- Both processes have ended, the input was printed and counted. -/
def Finished (total : List Byte) (s : State) : Prop :=
  s.client = .ended ∧ s.server = .ended ∧ s.output = total ∧ s.nread = total.length

/-- Both processes wait, with nothing on the way to the client, for the line `l` that is not echoed. -/
def Deadlocked (maxline : Nat) (total : List Byte) (s : State) : Prop :=
  s.client = .readline ∧ s.server = .readline ∧ s.up.wire = [] ∧ s.down = .fresh ∧
    ∃ l rest, Upto maxline total s.output (l ++ rest) ∧ l ≠ [] ∧ splitLine (maxline - 1) (l ++ rest) = (l, rest) ∧ ¬ Echoed maxline l

/-- A server that still counts has a step. -/
theorem readline_of_stuck {k : Nat} (h : ∀ s', ¬ Step rio s s') (hk : s.server.uncounted = some k) :
    s.server = .readline ∧ k = 0 := by
  cases hs : s.server with
  | readline =>
    rw [hs] at hk
    exact ⟨rfl, (Option.some.inj hk).symm⟩
  | count n => exact absurd (.count hs) (h _)
  | writen buf | ended =>
    rw [hs] at hk
    cases hk

/-- A state where nothing can go on. -/
theorem stuck_cases (hm : 1 < maxline) (hp : Phase maxline total s) (h : ∀ s', ¬ Step rio s s') :
    Finished total s ∨ Deadlocked maxline total s := by
  have hwire : s.up.wire = [] := by
    by_contra hne
    exact h _ (.arriveUp 1 Nat.one_pos (List.length_pos_iff.mpr hne))
  have hwire' : s.down.wire = [] := by
    by_contra hne
    exact h _ (.arriveDown 1 Nat.one_pos (List.length_pos_iff.mpr hne))
  rcases hp with hp | hp | hp | hp | hp
  · -- the client sends the next line or closes
    exfalso
    cases hl : fgets maxline s.input with
    | none => exact h _ (.close hp.client hl)
    | some x => exact h _ (.send hp.client hl)
  · obtain ⟨k, hk, -⟩ := hp.count
    obtain ⟨hs, -⟩ := readline_of_stuck h hk
    refine Or.inr ⟨hp.client, hs, hwire, hp.down, s.buf, s.input, hp.upto, hp.ne_nil, hp.line, fun he => ?_⟩
    have harr : s.up.arrived = cString s.buf := by simpa [hwire] using hp.up
    have hstring : cString s.buf = s.buf := cString_eq_self.mpr ((echoed_iff hp.line).mp he).1
    have hr : rio.readlineb s.up.arrived s.up.eof = some (splitLine (maxline - 1) s.up.arrived) := by
      have hwhole : WholeLine (maxline - 1) (cString s.buf) := he
      rw [rio.takes, harr, if_pos (Or.inl hwhole)]
    refine h _ (.read hs hr ?_)
    rw [harr, hstring]
    exact splitLine_ne_nil (by omega) hp.ne_nil
  · exact absurd (.write hp.server) (h _)
  · exfalso
    have harr : s.down.arrived = s.buf := by simpa [hwire'] using hp.down
    have hr : rio.readlineb s.down.arrived s.down.eof = some (splitLine (maxline - 1) s.down.arrived) := by
      rw [rio.takes, harr, if_pos (Or.inl ((echoed_iff hp.line).mp hp.whole).2)]
    exact h _ (.print hp.client hr)
  · obtain ⟨-, harr, hclosed⟩ := hp.up
    have htotal : s.output = total := by
      rw [← hp.upto.append, List.append_nil]
    rcases hp.server with ⟨k, hk, -, -⟩ | ⟨hs, hn, -, -⟩
    · exfalso
      obtain ⟨hs, -⟩ := readline_of_stuck h hk
      cases he : s.up.eof with
      | false => exact h _ (.eofUp hclosed hwire he)
      | true =>
        have hr : rio.readlineb s.up.arrived s.up.eof = some ([], []) := by
          rw [rio.takes, if_pos (Or.inr he), harr, splitLine_nil]
        exact h _ (.quit hs hr)
    · exact Or.inl ⟨hp.client, hs, htotal, hn⟩

/-- What the client has still to do with a line. -/
def Client.work : Client → Nat
  | .readline => 3
  | .fgets => 2
  | .ended => 0

/-- And the server. -/
def Server.work : Server → Nat
  | .writen buf => 5 * buf.length + 3
  | .count _ => 2
  | .readline => 1
  | .ended => 0

/-- The bytes and the end of a stream that have not been read. -/
def Stream.work (onWire onArrival : Nat) (c : Stream) : Nat :=
  onWire * c.wire.length + onArrival * c.arrived.length + (!c.eof).toNat

/-- What a session has still to do. A byte counts for less with every place that it passes. -/
def work (s : State) : Nat := 11 * s.input.length + s.up.work 9 8 + s.down.work 3 2 + s.client.work + s.server.work

/-- A read takes bytes that have arrived. -/
theorem length_readlineb {eof : Bool} (h : rio.readlineb arrived eof = some (l, rest)) : l.length + rest.length = arrived.length := by
  rw [rio.takes] at h
  split at h
  · have happ := splitLine_append (maxline - 1) arrived
    rw [Option.some.inj h] at happ
    rw [← happ, List.length_append]
  · cases h

/-- Every step does some of it. -/
theorem work_lt (hm : 1 < maxline) (h : Step rio s s') : work s' < work s := by
  cases h with
  | @send l rest hc hl =>
    unfold fgets at hl
    split at hl
    · cases hl
    · next hne =>
      have hsplit := Option.some.inj hl
      have happ := congrArg List.length (splitLine_append (maxline - 1) s.input)
      have hpos := List.length_pos_iff.mpr (splitLine_ne_nil (n := maxline - 1) (by omega) hne)
      have hstring := (prefix_cString l).length_le
      rw [hsplit] at happ hpos
      simp only [List.length_append] at happ hpos
      simp only [work, hc, Client.work, Stream.work, Stream.send, List.length_append]
      omega
  | close hc hl =>
    simp only [work, hc, Client.work, Stream.work]
    omega
  | print hc hl =>
    have hlen := length_readlineb hl
    simp only [work, hc, Client.work, Stream.work]
    omega
  | read hs hl hne =>
    have hlen := length_readlineb hl
    have hpos := List.length_pos_iff.mpr hne
    simp only [work, hs, Server.work, Stream.work]
    omega
  | quit hs hl =>
    simp only [work, hs, Server.work, Stream.work]
    omega
  | @write buf hs =>
    simp only [work, hs, Server.work, Stream.work, Stream.send, List.length_append]
    omega
  | count hs =>
    simp only [work, hs, Server.work]
    omega
  | arriveUp k hk hw =>
    simp only [work, Stream.work, Stream.deliver, List.length_append, List.length_drop, List.length_take]
    omega
  | arriveDown k hk hw =>
    simp only [work, Stream.work, Stream.deliver, List.length_append, List.length_drop, List.length_take]
    omega
  | eofUp hc hw he => simp [work, Stream.work, he]
  | eofDown hc hw he => simp [work, Stream.work, he]

/-- A deadlocked session has an input that is not good, and no step. -/
theorem Deadlocked.not_good (h : Deadlocked maxline total s) : ¬ Good maxline total := by
  obtain ⟨-, -, -, -, l, rest, hupto, hne, hline, hecho⟩ := h
  rw [hupto.good, good_iff (by simp [hne]) hline]
  exact fun hg => hecho hg.1

/-- A finished session has a good input. -/
theorem good_of_finished (hp : Phase maxline total s) (h : Finished total s) : Good maxline total := by
  obtain ⟨hc, -⟩ := h
  rcases hp with hp | hp | hp | hp | hp
  · rw [hp.client] at hc
    cases hc
  · rw [hp.client] at hc
    cases hc
  · rw [hp.client] at hc
    cases hc
  · rw [hp.client] at hc
    cases hc
  · exact hp.upto.good.mpr .nil

/-! ## Which inputs are good -/

/-- An input is good exactly when it has no zero byte and what follows its last newline makes up full lines. -/
theorem good_iff_tail (hm : 1 < maxline) (input : List Byte) :
    Good maxline input ↔ (0 : Byte) ∉ input ∧ tailLength input % (maxline - 1) = 0 := by
  induction hn : input.length using Nat.strongRecOn generalizing input with
  | ind n ih =>
    by_cases hne : input = []
    · subst hne
      exact iff_of_true .nil ⟨List.not_mem_nil, Nat.zero_mod _⟩
    · obtain ⟨l, rest, hsplit⟩ : ∃ l rest, splitLine (maxline - 1) input = (l, rest) := ⟨_, _, rfl⟩
      have happ := splitLine_append (maxline - 1) input
      have hpos := List.length_pos_iff.mpr (splitLine_ne_nil (n := maxline - 1) (by omega) hne)
      have hwhole := wholeLine_splitLine (n := maxline - 1) (l := input)
      rw [hsplit] at happ hpos hwhole
      simp only at happ hpos hwhole
      have hlen : rest.length < n := by
        rw [← hn, ← happ, List.length_append]
        omega
      rw [good_iff hne hsplit, echoed_iff hsplit, ih rest.length hlen rest rfl, hwhole]
      by_cases hw : WholeLine (maxline - 1) input
      · have htail := tailLength_splitLine hw
        rw [hsplit] at htail
        simp only at htail
        have hmod : tailLength input % (maxline - 1) = tailLength rest % (maxline - 1) := by
          rw [← happ, tailLength_append]
          split
          · rfl
          · next hnl => rw [tailLength_of_notMem hnl, Nat.add_mod, htail, Nat.add_zero, Nat.mod_mod]
        have hmem : (0 : Byte) ∉ input ↔ (0 : Byte) ∉ l ∧ (0 : Byte) ∉ rest := by
          rw [← happ, List.mem_append, not_or]
        rw [hmod, hmem]
        tauto
      · -- less than a buffer, without a newline
        refine iff_of_false (fun h => hw h.1.2) fun h => ?_
        unfold WholeLine at hw
        rw [not_or, not_le] at hw
        obtain ⟨hnl, hlt⟩ := hw
        rw [List.take_of_length_le (Nat.le_of_lt hlt)] at hnl
        rw [tailLength_of_notMem hnl, Nat.mod_eq_of_lt hlt] at h
        exact hne (List.eq_nil_of_length_eq_zero h.2)

/-- However the bytes arrive and whoever goes first: a session comes to an end; when nothing can go on, either the input is good, both
have ended, the client has printed its input and the server has counted it, or it is not, and both wait for ever for the first line that
is not echoed. The good inputs have no zero byte, and nothing behind their last newline that does not fill whole buffers. -/
theorem session_ends (hm : 1 < maxline) (rio : Rio maxline) (input : List Byte) :
    (¬ ∃ f : Nat → State, f 0 = start input ∧ ∀ i, Step rio (f i) (f (i + 1))) ∧
    (∀ s, (session rio input).Reach s → (∀ s', ¬ Step rio s s') →
      Good maxline input ∧ Finished input s ∨ ¬ Good maxline input ∧ Deadlocked maxline input s) ∧
    (Good maxline input ↔ (0 : Byte) ∉ input ∧ tailLength input % (maxline - 1) = 0) := by
  refine ⟨?_, fun s hr hstuck => ?_, good_iff_tail hm input⟩
  · rintro ⟨f, -, hf⟩
    exact Sys.no_infinite_run_of_wellFounded (S := session rio input) wellFounded_lt work (fun _ _ _ hst => work_lt hm hst)
      ⟨f, fun i => ⟨(), hf i⟩⟩
  · have hp := phase_reach hm hr
    rcases stuck_cases hm hp hstuck with h | h
    · exact Or.inl ⟨good_of_finished hp h, h⟩
    · exact Or.inr ⟨h.not_good, h⟩

/-- Some run comes to an end. -/
theorem exists_stuck (hm : 1 < maxline) (rio : Rio maxline) (input : List Byte) :
    ∃ s, (session rio input).Reach s ∧ ∀ s', ¬ Step rio s s' := by
  obtain ⟨s, hpath, hend⟩ := Sys.exists_end_of_wellFounded (S := session rio input) wellFounded_lt work
    (fun _ _ _ hst => work_lt hm hst) (start input)
  exact ⟨s, Sys.Reach.path (.init rfl) hpath, fun s' => hend () s'⟩

/-- `Rio_readlineb` as it is described. -/
def plainRio (maxline : Nat) : Rio maxline where
  readlineb arrived eof :=
    if WholeLine (maxline - 1) arrived ∨ eof = true then some (splitLine (maxline - 1) arrived) else none
  takes _ _ := rfl

/-- A line is echoed; without its newline it is not. -/
theorem session_ends_hi : (∃ s, (session (plainRio 8192) [104, 105, 10]).Reach s ∧ Finished [104, 105, 10] s) ∧
    ∃ s, (session (plainRio 8192) [104, 105]).Reach s ∧ Deadlocked 8192 [104, 105] s := by
  constructor
  · obtain ⟨-, hends, hgood⟩ := session_ends (show 1 < 8192 by decide) (plainRio 8192) [104, 105, 10]
    obtain ⟨s, hr, hstuck⟩ := exists_stuck (by decide) (plainRio 8192) [104, 105, 10]
    exact ⟨s, hr, ((hends s hr hstuck).resolve_right fun h => h.1 (hgood.mpr (by decide))).2⟩
  · obtain ⟨-, hends, hgood⟩ := session_ends (show 1 < 8192 by decide) (plainRio 8192) [104, 105]
    obtain ⟨s, hr, hstuck⟩ := exists_stuck (by decide) (plainRio 8192) [104, 105]
    exact ⟨s, hr, ((hends s hr hstuck).resolve_left fun h => absurd (hgood.mp h.1) (by decide)).2⟩

end OsLabs.EchoSession
