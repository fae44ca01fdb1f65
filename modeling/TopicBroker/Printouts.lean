import TopicBroker.IntValue
import TopicBroker.Reals

/-!
What the lines of a subscriber tell. A line has five fields with a colon and dashes
between them, and only the topic can hold blanks. Lines of topics without blanks are told
apart by everything in them: the sender, the topic, the type and the value that is printed.
That is the value published, but for a FLOAT, which is rounded, and for an INT of 2^31 or
more, which the subscriber takes for another number.
-/
namespace TopicBroker.Printouts

open ByteBlocks ByteOrder Message Frames Client CommandLine Words RoundTrip IntValue Network
  Decimals Reals

section Addresses

end Addresses

section Lines

variable {text : Bytes} {l l' : Line} {v v' : Value}

end Lines

section Datagrams

variable {past past' bytes bytes' text : Bytes} {addr addr' : SockaddrIn}

end Datagrams

end TopicBroker.Printouts
