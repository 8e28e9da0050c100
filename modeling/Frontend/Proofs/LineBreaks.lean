import Frontend.Proofs.LexicalReport
import Frontend.Proofs.ScanJoin

/-!
# Scanning is done line by line

A newline divides a source for the scanner. What is scanned in front of it does not
depend on the text behind it, and that text is scanned as if it stood alone, so many
bytes further on. This holds wherever the front breaks off: within a symbol of two
characters, behind the dot of a number, in the comment at the end of a line. Only a
block comment goes over a newline, and one that is never closed takes all that is left.

`tokenize_join` says so of the tokens and of what is reported on the way.
-/

namespace Frontend

open Text

/-- What a scanner holds against a source once it has handed out all of its tokens. -/
def scanReports (source file : String) : List Diagnostic :=
  ((Scanner.ofSource source file).after (tokenize source file).length).diagnostics

theorem scanReports_eq (source file : String) :
    scanReports source file = (Scanner.ofSource source file).run.flatMap (·.diagnostics) := by
  rw [scanReports, tokenize, List.length_map, Scanner.after_run_diagnostics]

theorem Supply.flatMap_shift (size : Nat) (supplies : List Supply) :
    (supplies.map (Supply.shift size)).flatMap (·.diagnostics) =
      (supplies.flatMap (·.diagnostics)).map (.shift size) := by
  rw [List.flatMap_map, List.map_flatMap]
  rfl

/-- Two texts with a newline between them have the tokens of the first, its end token
apart, and behind them the tokens of the second, so many bytes further on. The same
goes for what is reported about them, by a scanner and by a parse. -/
theorem tokenize_join {first second : String}
    (hsize : byteSize (first ++ "\n" ++ second).toList < Position.limit) (file : String)
    (hcomment : ∀ d ∈ scanReports first file, d.cause ≠ .unterminatedComment) :
    ∃ ts last, tokenize first file = ts ++ [last] ∧ last.kind = .eof ∧
      (∀ t ∈ ts, t.kind ≠ .eof) ∧
      tokenize (first ++ "\n" ++ second) file =
        ts ++ (tokenize second file).map
          (Relabelling.moved (.shift (byteSize first.toList + 1))).token ∧
      scanReports (first ++ "\n" ++ second) file =
        scanReports first file ++
          (scanReports second file).map (.shift (byteSize first.toList + 1)) ∧
      (parse (first ++ "\n" ++ second) file).2.filter (·.cause.isLexical) =
        (parse first file).2.filter (·.cause.isLexical) ++
          ((parse second file).2.filter (·.cause.isLexical)).map
            (.shift (byteSize first.toList + 1)) := by
  rw [scanReports_eq] at hcomment
  obtain ⟨supplies, hrun, hjoin⟩ := run_join hsize file hcomment
  have hfirst : tokenize first file =
      supplies.map (·.token) ++ [.atEnd (byteSize first.toList) file] := by
    rw [tokenize, hrun, List.map_append]
    rfl
  have hreports : (Scanner.ofSource (first ++ "\n" ++ second) file).run.flatMap (·.diagnostics) =
      (Scanner.ofSource first file).run.flatMap (·.diagnostics) ++
        ((Scanner.ofSource second file).run.flatMap (·.diagnostics)).map
          (.shift (byteSize first.toList + 1)) := by
    rw [hjoin, hrun, List.flatMap_append, List.flatMap_append, Supply.flatMap_shift,
      List.flatMap_singleton, List.append_nil]
  refine ⟨supplies.map (·.token), _, hfirst, rfl, ?_, ?_, ?_, ?_⟩
  · have hends := EndsOnce.run (Scanner.ofSource first file)
    rw [EndsOnce, hrun, List.pairwise_append] at hends
    refine List.forall_mem_map.mpr fun s hs => ?_
    exact hends.2.2 s hs _ (List.mem_singleton_self _)
  · rw [tokenize, tokenize, hjoin, List.map_append, List.map_map, List.map_map]
    rfl
  · rw [scanReports_eq, scanReports_eq, scanReports_eq, hreports]
  · rw [parse_isLexical, parse_isLexical, parse_isLexical, hreports]

/-- The first text breaks off behind the dot of a number and half of a symbol, the
second one starts with the rest of the symbol. -/
theorem tokenize_join_sample :
    byteSize ("€ /**/ 1. &" ++ "\n" ++ "& /*").toList < Position.limit ∧
      (∀ d ∈ scanReports "€ /**/ 1. &" "a.x", d.cause ≠ .unterminatedComment) ∧
      scanReports ("€ /**/ 1. &" ++ "\n" ++ "& /*") "a.x" =
        scanReports "€ /**/ 1. &" "a.x" ++ (scanReports "& /*" "a.x").map (.shift 14) := by
  have h : byteSize ("€ /**/ 1. &" ++ "\n" ++ "& /*").toList < Position.limit := by decide
  have hcomment : ∀ d ∈ scanReports "€ /**/ 1. &" "a.x", d.cause ≠ .unterminatedComment := by
    decide
  obtain ⟨ts, last, -, -, -, -, hreports, -⟩ := tokenize_join h "a.x" hcomment
  exact ⟨h, hcomment, hreports⟩

end Frontend
