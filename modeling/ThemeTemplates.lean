import ThemeTemplates.Bytes
import ThemeTemplates.Table
import ThemeTemplates.Text.Utf8
import ThemeTemplates.Text.Blank
import ThemeTemplates.Tag
import ThemeTemplates.Tag.Comments
import ThemeTemplates.Arguments
import ThemeTemplates.Node
import ThemeTemplates.Functions
import ThemeTemplates.Outline
import ThemeTemplates.Block.Delimiter
import ThemeTemplates.Block.Closing
import ThemeTemplates.Block.Else
import ThemeTemplates.ParseError
import ThemeTemplates.Template
import ThemeTemplates.Files.Path
import ThemeTemplates.Files.Entry
import ThemeTemplates.Files.FileSystem
import ThemeTemplates.Files.Edit
import ThemeTemplates.Registry.Options
import ThemeTemplates.Registry.Error
import ThemeTemplates.Registry.Generation
import ThemeTemplates.Registry.Queue
import ThemeTemplates.Registry
import ThemeTemplates.Session
import ThemeTemplates.CommandLine
import ThemeTemplates.Main
import ThemeTemplates.Proofs.Marks
import ThemeTemplates.Proofs.Characters
import ThemeTemplates.Proofs.Compiles
import ThemeTemplates.Proofs.Excision
import ThemeTemplates.Proofs.ElseBranch
import ThemeTemplates.Proofs.TreeShape
import ThemeTemplates.Proofs.Pairing
import ThemeTemplates.Proofs.Provenance
import ThemeTemplates.Proofs.Delimiters
import ThemeTemplates.Proofs.LiveDelimiters
import ThemeTemplates.Proofs.ClosedText
import ThemeTemplates.Proofs.Brackets
import ThemeTemplates.Proofs.Pieces
import ThemeTemplates.Proofs.Nesting
import ThemeTemplates.Proofs.Fields
import ThemeTemplates.Proofs.FirstTag
import ThemeTemplates.Proofs.CommentEnd
import ThemeTemplates.Proofs.Recognition
import ThemeTemplates.Proofs.InsertedComment
import ThemeTemplates.Proofs.GenerationOutput
import ThemeTemplates.Proofs.ArgumentText
import ThemeTemplates.Proofs.Tokens
import ThemeTemplates.Proofs.StackParser
import ThemeTemplates.Proofs.Passes
import ThemeTemplates.Proofs.NormalForm
import ThemeTemplates.Proofs.RebuildHistory
import ThemeTemplates.Proofs.RequestQueue
import ThemeTemplates.Proofs.SharedRegistry
import ThemeTemplates.Proofs.TreeSize
import ThemeTemplates.Proofs.TagCount
import ThemeTemplates.Proofs.ArgumentItems
import ThemeTemplates.Proofs.Binding
import ThemeTemplates.Proofs.Depth
import ThemeTemplates.Proofs.DevelopmentMode
import ThemeTemplates.Proofs.FileTree
import ThemeTemplates.Proofs.ThemeWalk
import ThemeTemplates.Proofs.WatchedDirectories
import ThemeTemplates.Proofs.ElseJoin
import ThemeTemplates.Proofs.QuotedValue
import ThemeTemplates.Proofs.FileOrder
import ThemeTemplates.Proofs.BlockText
import ThemeTemplates.Proofs.PairMatches
import ThemeTemplates.Proofs.NodeNames
import ThemeTemplates.Proofs.OutlineShape
import ThemeTemplates.Proofs.LeadingText
import ThemeTemplates.Proofs.NamedTokens
import ThemeTemplates.Proofs.CommentSearch
