import ThemeTemplates.Block.Delimiter
import ThemeTemplates.Tag.Comments

/-! # The closer of a block

Blocks of one name may nest. From the left, each opener that stands before the closer under
consideration passes the search on to the next closer; the first closer that no opener precedes ends
the block. Delimiters that start in a long comment do not count.
-/

namespace ThemeTemplates.Block

set_option autoImplicit false

/-- The closer of a block, from the openers after its own and the closers. -/
def settle : (openers closers : List Span) → Option Span
  | [], closers => closers.head?
  | _ :: _, [] => none
  | o :: openers, c :: closers =>
    if o.start < c.start then settle openers closers else some c

/-- The spans that start in none of the comments. -/
def outside (comments spans : List Span) : List Span :=
  spans.filter fun s => !comments.any fun c => c.contains s.start

/-- The delimiters of one sort that count. The name is that of a tag, and malformed bytes of it
stand for replacement characters. -/
def delimiters (side : Delimiter.Side) (name text : Bytes) : List Span :=
  outside (Tag.commentSpans text) (Delimiter.spans side (Utf8.encode (Utf8.decode name)) text)

/-- The closer of the block whose opener stands right before the text. -/
def closing? (name text : Bytes) : Option Span :=
  settle (delimiters .opener name text) (delimiters .closer name text)

end ThemeTemplates.Block
