import TyLang.Arrays.Order
import TyLang.Arrays.Partition
import TyLang.Arrays.Rotate
import TyLang.Arrays.Uniq
import TyLang.Arrays.Windows
import TyLang.Assign.Agree
import TyLang.Base64
import TyLang.Blobs
import TyLang.Blobs.Str
import TyLang.Channel.Close
import TyLang.Classes.Members
import TyLang.Classes.Offsets
import TyLang.Classes.Subclass
import TyLang.Compare.Branch
import TyLang.Compare.Records
import TyLang.Dict.Iterate
import TyLang.Dict.Sets
import TyLang.Divisors
import TyLang.Equality.Hash
import TyLang.Fold.Correct
import TyLang.Gc.Forget
import TyLang.Gc.Sweep
import TyLang.Intern
import TyLang.Json.Grammar
import TyLang.Json.TextOnly
import TyLang.Json.Visiting
import TyLang.Match.TagGroup
import TyLang.Operators.Fresh
import TyLang.Operators.Specific
import TyLang.Parse.Precedence
import TyLang.Prelude.IntText
import TyLang.Prelude.Ranges
import TyLang.Prelude.Tee
import TyLang.Queue.Shared
import TyLang.Strings.Chars
import TyLang.Strings.EditDistance
import TyLang.Strings.Lines
import TyLang.Strings.Padding
import TyLang.Strings.SearchLast
import TyLang.Tags
import TyLang.Temporal
import TyLang.Temporal.Week
import TyLang.Trees.Iterate
import TyLang.Trees.Neighbors
import TyLang.Try.Finally
import TyLang.Types.Exact
import TyLang.Types.Flatten
import TyLang.Types.Range
import TyLang.Vm.CallFrame
import TyLang.Vm.Subscript
