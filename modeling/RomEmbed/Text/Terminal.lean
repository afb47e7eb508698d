import RomEmbed.Text.Utf8

/-!
Texts without what is meant for a terminal only. Control sequences are left out, and so
are the control characters of ASCII other than blanks; those from U+0080 to U+009F are
characters like any other. The text is scanned once, and while a sequence
is read nothing but blanks is kept. A blank within a sequence either ends it, as in
`plain`, or only puts it off until the next control character, as in `streamed`, which is
what reaches a stream that is no terminal. The two agree on a text without these control
characters, and leave it as it is.
-/

namespace RomEmbed.Terminal

/-- How far a control sequence has been read. -/
inductive Mode where
  | ground
  | escape
  | escapeInner
  /-- Parameters up to a final letter. -/
  | control
  | deviceEntry
  | deviceParam
  | deviceInner
  /-- A string that only its terminator ends. -/
  | string
  /-- A command to the system, which a bell ends too. -/
  | system
deriving DecidableEq

/-- The blanks that are kept among the control characters of ASCII. -/
def isKeptBlank (c : Char) : Bool := c == '\t' || c == '\n' || c == '\x0C' || c == '\r'

/-- What is kept outside of sequences. -/
def isShown (c : Char) : Bool := (' ' ≤ c && c ≠ '\x7F') || isKeptBlank c

/-- The octet that ends a string when it stands alone; here it is part of a character. -/
def terminator : UInt8 := 0x9C

namespace Mode

/-- Within a sequence, by the next character of it. -/
def next (m : Mode) (c : Char) : Mode :=
  let within (low high : Char) : Bool := low ≤ c && c ≤ high
  if c = '\x18' ∨ c = '\x1A' then ground
  else if c = '\x1B' then escape
  else match m with
    | ground => ground
    | escape =>
      if within ' ' '/' then escapeInner
      else if c = '[' then control
      else if c = ']' then system
      else if c = 'P' then deviceEntry
      else if c = 'X' ∨ c = '^' ∨ c = '_' then string
      else if within '0' '~' then ground
      else escape
    | escapeInner => if within '0' '~' then ground else escapeInner
    | control => if within '@' '~' then ground else control
    | deviceEntry =>
      if within ' ' '/' then deviceInner
      else if within '0' '?' then deviceParam
      else if within '@' '~' then string
      else deviceEntry
    | deviceParam =>
      if within ' ' '/' then deviceInner
      else if within '<' '~' then string
      else deviceParam
    | deviceInner => if within '0' '~' then string else deviceInner
    | string => if terminator ∈ Utf8.encodeChar c then ground else string
    | system => if c = '\x07' then ground else system

/-- Whether a character is kept though a sequence is under way. -/
def keeps (m : Mode) (c : Char) : Bool :=
  match m with
  | ground => isShown c
  | escape | escapeInner | control => isKeptBlank c
  | _ => false

end Mode

/-- What a blank that is kept does to the sequence it stands in. -/
inductive AtBlank where
  | ends
  /-- The sequence goes on at the next control character. -/
  | putsOff
deriving DecidableEq

/-- How the sequence stands after a character of it that is kept. -/
def AtBlank.next (b : AtBlank) (m : Mode) (c : Char) : Mode :=
  match b with
  | ends => .ground
  | putsOff => m.next c

structure State where
  /-- What is kept, latest first. -/
  kept : Text := []
  keeping : Bool := false
  mode : Mode := .ground

/-- Reads a character of a sequence, or the first one after it. -/
def skip (b : AtBlank) (s : State) (c : Char) : State :=
  if s.mode.keeps c then ⟨c :: s.kept, true, b.next s.mode c⟩
  else ⟨s.kept, false, s.mode.next c⟩

def step (b : AtBlank) (s : State) (c : Char) : State :=
  if s.keeping then
    if isShown c then ⟨c :: s.kept, true, if c.toNat < 0x80 then s.mode else .ground⟩
    else if c = '\x1B' then skip b { s with mode := .escape } c
    else if c = '\x18' ∨ c = '\x1A' then skip b { s with mode := .ground } c
    else skip b s c
  else skip b s c

def run (b : AtBlank) (s : State) (t : Text) : State := t.foldl (step b) s

@[simp] theorem run_nil (b : AtBlank) (s : State) : run b s [] = s := rfl

@[simp] theorem run_cons (b : AtBlank) (s : State) (c : Char) (t : Text) :
    run b s (c :: t) = run b (step b s c) t := rfl

theorem run_append (b : AtBlank) (s : State) (t u : Text) :
    run b s (t ++ u) = run b (run b s t) u := by
  simp [run, List.foldl_append]

/-- What is kept of a text. -/
def keep (b : AtBlank) (t : Text) : Text := (run b {} t).kept.reverse

/-- A text of which all characters are shown is kept as it is. -/
theorem keep_of_shown (b : AtBlank) {t : Text} (h : ∀ c ∈ t, isShown c = true) :
    keep b t = t := by
  suffices ∀ (s : State), s.mode = .ground → (run b s t).kept = t.reverse ++ s.kept by
    simp [keep, this]
  induction t with
  | nil => intro s _; rfl
  | cons c r ih =>
    intro s hs
    have hc := h c (by simp)
    have next_eq : Mode.next .ground c = .ground := by
      simp only [Mode.next]
      split
      · rfl
      · split
        · next hx => subst hx; simp [isShown, isKeptBlank] at hc
        · rfl
    have blank_eq : b.next .ground c = .ground := by
      cases b
      · rfl
      · exact next_eq
    have step_eq : step b s c = ⟨c :: s.kept, true, .ground⟩ := by
      unfold step skip
      split
      · simp [hs]
      · simp [hs, Mode.keeps, hc, blank_eq]
    rw [run_cons, step_eq, ih (fun d hd => h d (by simp [hd])) _ rfl]
    simp

/-- The text without control sequences, each of which ends at a blank. -/
def plain (t : Text) : Text := keep .ends t

/-- What of the text reaches a stream that is no terminal. -/
def streamed (t : Text) : Text := keep .putsOff t

end RomEmbed.Terminal
