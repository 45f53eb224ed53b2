import PhpRuntime.FastCgi.AllowedClients
import PhpRuntime.Hash.Positions
import PhpRuntime.Hash.QuickSort
import PhpRuntime.Arrays.Pad
import PhpRuntime.Arrays.Slices
import PhpRuntime.Arrays.Pop
import PhpRuntime.Arrays.Unique
import PhpRuntime.Fpm.EventLoop
import PhpRuntime.Fpm.Faults
import PhpRuntime.Base64.Strict
import PhpRuntime.Url.Compose
import PhpRuntime.Cli.DotSegments
import PhpRuntime.VirtualCwd.Expand
import PhpRuntime.Operators.LeadingNumbers
import PhpRuntime.Operators.SmartCompare
import PhpRuntime.Operators.Increment
import PhpRuntime.QuotPrint.Bounds
import PhpRuntime.Uuencode.Codec
import PhpRuntime.Opcache.JumpThreading
import PhpRuntime.Streams.Filtered
import PhpRuntime.Streams.LineEndings
import PhpRuntime.Streams.Memory
import PhpRuntime.Filters.Dechunk
import PhpRuntime.Variables.Register
import PhpRuntime.Html.Utf8Decoding
import PhpRuntime.Standard.Levenshtein
import PhpRuntime.Standard.Explode
import PhpRuntime.Standard.Slashes
import PhpRuntime.Standard.Strtr
import PhpRuntime.Validation.Ranges
import PhpRuntime.Spl.Heap
import PhpRuntime.Spl.DllistIteration
import PhpRuntime.Spl.RecursiveIteration
import PhpRuntime.Sysvshm.Variables
import PhpRuntime.Dba.Flatfile
