/-
  Grammars with optional symbols — expanding a source.

  * `expand`: the grammar of a source, in which every optional symbol has the two rules
    that it stands for, and the log of the way there.
  * `expandInto`: the same, with the listing of the grammar written to a sink.

  Nothing is written before all of the source has been read.
-/
import OptGrammar.Listing
import OptGrammar.Shorthand
import OptGrammar.Sink

namespace OptGrammar

/-- What expanding a source came to. -/
structure Expansion where
  log : List Event
  result : Except Fault Grammar

/-- Expand a source. -/
def expand (source : Bytes) : Expansion :=
  match Shorthand.pass source with
  | ⟨draft, some fault⟩ => ⟨draft.log, .error fault⟩
  | ⟨draft, none⟩ => ⟨(draft.emit draft.finished).log, .ok draft.finish⟩

/-- The pieces in which a listing is written: every line and every line end. -/
def Listing.pieces (g : Grammar) : List Bytes :=
  (Listing.lines g).flatMap fun line => [Utf8.encode line, [0x0A]]

/-- Write the listing of a grammar to a sink. -/
def Listing.writeTo (g : Grammar) (sink : Sink) : Except StreamFault Unit × Sink :=
  match (Outlet.ofSink sink).send (Listing.pieces g) with
  | .ok sink => (.ok (), sink)
  | .error sink => (.error .sinkFull, sink)

/-- Expand a source and write the listing to a sink. -/
def expandInto (source : Bytes) (sink : Sink) : Except Fault Grammar × Sink :=
  match (expand source).result with
  | .error fault => (.error fault, sink)
  | .ok g =>
    match Listing.writeTo g sink with
    | (.ok _, sink) => (.ok g, sink)
    | (.error cause, sink) => (.error (.stream cause), sink)

end OptGrammar
