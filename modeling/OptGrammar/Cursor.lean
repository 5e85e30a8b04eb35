/-
  Grammars with optional symbols — reading a text line by line.

  * `Cursor`: the lines of a text not read yet, and how many have been.
  * `Reading`: a reader of lines, which moves the cursor also when it fails, and how many
    times it asks for a line.
  * `nextLine`: the next line, if there is one; only now its bytes are decoded.
  * `count`: a line that holds the number of entries of a section.
  * `entries`: as many lines as a section announced.

  A line is read once, in order, and the number of the line read last is the number of
  lines read.
-/
import OptGrammar.Fault
import OptGrammar.Text.Count
import OptGrammar.Text.Line

namespace OptGrammar

/-- A place in a text: the lines after it, and the number of lines before it. -/
structure Cursor where
  rest : List Bytes
  number : Nat
  deriving DecidableEq

/-- The start of a text. -/
def Cursor.ofBytes (bs : Bytes) : Cursor := ⟨bs.lines, 0⟩

/-- A reader of lines: from a cursor it makes a value or a fault, and a new cursor. -/
structure Reading (α : Type) where
  run : Cursor → Except Fault α × Cursor
  /-- How many times it asks for the next line; at the end of the text it asks in vain. -/
  asked : Cursor → Nat

namespace Reading

variable {α β : Type}

instance : Monad Reading where
  pure a := ⟨fun c => (.ok a, c), fun _ => 0⟩
  bind x f :=
    { run := fun c =>
        match x.run c with
        | (.ok a, c) => (f a).run c
        | (.error e, c) => (.error e, c)
      asked := fun c =>
        match x.run c with
        | (.ok a, c₁) => x.asked c + (f a).asked c₁
        | (.error _, _) => x.asked c }

/-- The reader that fails where it stands. -/
def fail (e : Fault) : Reading α := ⟨fun c => (.error e, c), fun _ => 0⟩

@[simp]
theorem run_pure (a : α) (c : Cursor) : (pure a : Reading α).run c = (.ok a, c) := rfl

@[simp]
theorem run_fail (e : Fault) (c : Cursor) : (fail e : Reading α).run c = (.error e, c) := rfl

theorem run_bind (x : Reading α) (f : α → Reading β) (c : Cursor) :
    (x >>= f).run c =
      match x.run c with
      | (.ok a, c) => (f a).run c
      | (.error e, c) => (.error e, c) := rfl

@[simp]
theorem asked_pure (a : α) (c : Cursor) : (pure a : Reading α).asked c = 0 := rfl

@[simp]
theorem asked_fail (e : Fault) (c : Cursor) : (fail e : Reading α).asked c = 0 := rfl

theorem asked_bind_of_ok {x : Reading α} {c c₁ : Cursor} {a : α} (h : x.run c = (.ok a, c₁))
    (f : α → Reading β) : (x >>= f).asked c = x.asked c + (f a).asked c₁ := by
  simp only [bind, h]

theorem asked_bind_of_error {x : Reading α} {c c₁ : Cursor} {e : Fault}
    (h : x.run c = (.error e, c₁)) (f : α → Reading β) : (x >>= f).asked c = x.asked c := by
  simp only [bind, h]

/-- What a reader makes of raw bytes. -/
def ofBytes (reader : Reading α) (bs : Bytes) : Except Fault α := (reader.run (.ofBytes bs)).1

/-! ## Lines, counts and sections -/

/-- The number of the line read last. -/
def lineNumber : Reading Nat := ⟨fun c => (.ok c.number, c), fun _ => 0⟩

/-- The next line, none at the end of the text.  A line that is not UTF-8 counts as
    read. -/
def nextLine : Reading (Option Text) where
  run c :=
    match c.rest with
    | [] => (.ok none, c)
    | raw :: rest =>
      match Utf8.decode raw with
      | none => (.error (.stream .notUtf8), ⟨rest, c.number + 1⟩)
      | some line => (.ok (some line), ⟨rest, c.number + 1⟩)
  asked _ := 1

@[simp]
theorem asked_nextLine (c : Cursor) : nextLine.asked c = 1 := rfl

theorem nextLine_nil (n : Nat) : nextLine.run ⟨[], n⟩ = (.ok none, ⟨[], n⟩) := rfl

theorem nextLine_of_decode {raw : Bytes} {line : Text} (h : Utf8.decode raw = some line)
    (rest : List Bytes) (n : Nat) :
    nextLine.run ⟨raw :: rest, n⟩ = (.ok (some line), ⟨rest, n + 1⟩) := by
  simp [nextLine, h]

theorem nextLine_of_decode_none {raw : Bytes} (h : Utf8.decode raw = none)
    (rest : List Bytes) (n : Nat) :
    nextLine.run ⟨raw :: rest, n⟩ = (.error (.stream .notUtf8), ⟨rest, n + 1⟩) := by
  simp [nextLine, h]

/-- A line that holds the number of entries of a section. -/
def count (part : Section) : Reading Nat := do
  match ← nextLine with
  | none => fail (.missingCount part)
  | some line =>
    match Count.read? (Text.trim line) with
    | none => fail (.invalidCount (← lineNumber) (Text.trim line))
    | some n => return n

/-- The `missing` last entries of a section that announced `announced`. -/
def entriesFrom (part : Section) (announced : Nat) : Nat → Reading (List Text)
  | 0 => return []
  | missing + 1 => do
    match ← nextLine with
    | none => fail (.truncated part announced (announced - (missing + 1)))
    | some line => return line :: (← entriesFrom part announced missing)

/-- The lines of a section that announced `n` entries. -/
def entries (part : Section) (n : Nat) : Reading (List Text) := entriesFrom part n n

end Reading

end OptGrammar
